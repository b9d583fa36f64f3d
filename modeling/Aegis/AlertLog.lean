import Aegis.Store

/-!
# Acknowledging an alert

The key of an alert is built from its time and its id when it is appended, and
once more when it is acknowledged. An id that is no UUID takes a fresh one each
time.
-/

namespace Aegis
variable {F : Type}

def AlertRow.acked (row : AlertRow) : AlertRow := { row with acknowledged := true }

/-- The key of an alert; an id that does not parse is replaced by a fresh one. -/
def AlertRow.key (row : AlertRow) (fresh : Uuid) : CompositeKey :=
  compositeKey row.tsNs ((Uuid.parseStr row.id).getD fresh)

namespace Store

/-- The first alert with the id, in the order of the keys. -/
def alertWithId (s : Store F) (id : String) : Option (CompositeKey × AlertRow) :=
  s.alerts.rows.find? fun r => r.2.id = id

def acknowledgeAlert (s : Store F) (fresh : Uuid) (id : String) : Bool × Store F :=
  match s.alertWithId id with
  | some (_, row) => (true, { s with alerts := s.alerts.insert (row.acked.key fresh) row.acked })
  | none => (false, s)

end Store

/-- The calls that write the alert log, with the UUID drawn where one is needed. -/
inductive AlertCall where
  | append (fresh : Uuid) (row : AlertRow)
  | acknowledge (fresh : Uuid) (id : String)

namespace Store

def serveAlert (s : Store F) : AlertCall → Store F
  | .append fresh row => s.appendAlert fresh row
  | .acknowledge fresh id => (s.acknowledgeAlert fresh id).2

/-- The store after a sequence of calls. -/
def afterAlerts (calls : List AlertCall) : Store F := calls.foldl serveAlert .empty

/-- Sets the flag of the row under one key. -/
def ackAt (k : CompositeKey) (r : CompositeKey × AlertRow) : CompositeKey × AlertRow :=
  if r.1 = k then (r.1, r.2.acked) else r

/-- What acknowledging an alert may do: set the flag of one row with the id, the same whether
it is done once or twice, and nothing where no row has the id. -/
def AcknowledgesOnly (s : Store F) (id : String) (fresh fresh' : Uuid) : Prop :=
  let (found, t) := s.acknowledgeAlert fresh id
  (found = true ↔ ∃ r ∈ s.alerts.rows, r.2.id = id) ∧
  (found = false → t = s) ∧
  (found = true → ∃ k ∈ (s.alerts.rows.filter fun r => r.2.id = id).map Prod.fst,
    t = { s with alerts := t.alerts } ∧ t.alerts.rows = s.alerts.rows.map (ackAt k)) ∧
  t.acknowledgeAlert fresh' id = (found, t)

/-- The UUIDs drawn for an id that is none lead to a row that repeats the found one, and the
second of them to one that is set already. -/
def KeyRecovered (s : Store F) (id : String) (fresh fresh' : Uuid) : Prop :=
  ∀ r, s.alertWithId id = some r → Uuid.parseStr id = none →
    (∃ row, s.alerts.get? (compositeKey r.2.tsNs fresh) = some row ∧ row.acked = r.2.acked) ∧
    (fresh' = fresh ∨ s.alerts.get? (compositeKey r.2.tsNs fresh') = some r.2.acked)

end Store

namespace Store
variable {s : Store F} {id : String} {fresh fresh' : Uuid} {r : CompositeKey × AlertRow}

/-- Every alert is under a key that its own time and id lead back to. -/
def AlertsKeyed (s : Store F) : Prop :=
  ∀ r ∈ s.alerts.rows, ∃ fresh : Uuid, r.1 = r.2.key fresh

theorem alertsKeyed_insert (h : s.AlertsKeyed) (row : AlertRow) (fresh : Uuid) :
    { s with alerts := s.alerts.insert (row.key fresh) row }.AlertsKeyed := by
  intro r hr
  rcases OrderedTable.mem_insert_rows hr with rfl | hr
  · exact ⟨fresh, rfl⟩
  · exact h r hr

theorem alertsKeyed_serve (h : s.AlertsKeyed) (call : AlertCall) :
    (s.serveAlert call).AlertsKeyed := by
  cases call with
  | append fresh row => exact alertsKeyed_insert h row fresh
  | acknowledge fresh id =>
      simp only [serveAlert, acknowledgeAlert]
      cases s.alertWithId id with
      | none => exact h
      | some r => exact alertsKeyed_insert h r.2.acked fresh

theorem alertsKeyed_after (calls : List AlertCall) : (afterAlerts calls : Store F).AlertsKeyed := by
  have hfold : ∀ (calls : List AlertCall) (s : Store F), s.AlertsKeyed →
      (calls.foldl serveAlert s).AlertsKeyed := by
    intro calls
    induction calls with
    | nil => exact fun s hs => hs
    | cons call calls ih => exact fun s hs => ih _ (alertsKeyed_serve hs call)
  exact hfold calls .empty fun r hr => absurd hr List.not_mem_nil

theorem alertWithId_mem (h : s.alertWithId id = some r) : r ∈ s.alerts.rows ∧ r.2.id = id :=
  ⟨List.mem_of_find?_eq_some h, by simpa using List.find?_some h⟩

theorem alertWithId_eq_none :
    s.alertWithId id = none ↔ ¬ ∃ r ∈ s.alerts.rows, r.2.id = id := by
  simp [alertWithId]

/-- The rebuilt key holds a row that differs from the found one in its flag at most. -/
def Recovered (s : Store F) (r : CompositeKey × AlertRow) (fresh : Uuid) : Prop :=
  ∃ row, s.alerts.get? (r.2.key fresh) = some row ∧ row.acked = r.2.acked

theorem insert_acked_rows {row : AlertRow} {k : CompositeKey} (hget : s.alerts.get? k = some row)
    (hsame : row.acked = r.2.acked) :
    (s.alerts.insert k r.2.acked).rows = s.alerts.rows.map (ackAt k) := by
  rw [OrderedTable.insert_rows_of_get? _ hget]
  refine List.map_congr_left fun x hx => ?_
  unfold ackAt
  split
  · rename_i hk
    have hx' := OrderedTable.get?_eq_some_iff.mpr hx
    rw [hk, hget] at hx'
    rw [hk, ← hsame, Option.some.inj hx']
  · rfl

theorem acked_rows_iff (h : s.alertWithId id = some r) :
    (∃ k ∈ (s.alerts.rows.filter fun r => r.2.id = id).map Prod.fst,
      (s.alerts.insert (r.2.key fresh) r.2.acked).rows = s.alerts.rows.map (ackAt k)) ↔
    s.Recovered r fresh := by
  constructor
  · rintro ⟨k, -, hrows⟩
    have hmem : (r.2.key fresh, r.2.acked) ∈ s.alerts.rows.map (ackAt k) := by
      rw [← hrows]
      exact OrderedTable.insertRow_mem _ _ _
    obtain ⟨x, hx, hack⟩ := List.mem_map.mp hmem
    rw [ackAt] at hack
    split at hack
    · obtain ⟨hkey, hsame⟩ := Prod.mk.inj hack
      exact ⟨x.2, OrderedTable.get?_eq_some_iff.mpr (hkey ▸ hx), hsame⟩
    · subst hack
      exact ⟨r.2.acked, OrderedTable.get?_eq_some_iff.mpr hx, rfl⟩
  · rintro ⟨row, hget, hsame⟩
    refine ⟨r.2.key fresh, ?_, insert_acked_rows hget hsame⟩
    have hid : row.id = id := (congrArg AlertRow.id hsame).trans (alertWithId_mem h).2
    have hmem := OrderedTable.get?_eq_some_iff.mp hget
    exact List.mem_map.mpr ⟨_, List.mem_filter.mpr ⟨hmem, by simpa using hid⟩, rfl⟩

theorem acknowledgeAlert_found (h : s.alertWithId id = some r) :
    s.acknowledgeAlert fresh id =
      (true, { s with alerts := s.alerts.insert (r.2.key fresh) r.2.acked }) := by
  rw [acknowledgeAlert, h]
  rfl

/-- The found row stays the first one with its id. -/
theorem alertWithId_acked (h : s.alertWithId id = some r) (hrec : s.Recovered r fresh) :
    (s.acknowledgeAlert fresh id).2.alertWithId id = some (ackAt (r.2.key fresh) r) := by
  obtain ⟨row, hget, hsame⟩ := hrec
  have hid : ((fun r : CompositeKey × AlertRow => decide (r.2.id = id)) ∘ ackAt (r.2.key fresh)) =
      fun r => decide (r.2.id = id) := by
    funext x
    simp only [Function.comp_apply, ackAt]
    split <;> rfl
  rw [acknowledgeAlert_found h, alertWithId, insert_acked_rows hget hsame, List.find?_map, hid]
  exact congrArg (Option.map _) h

theorem acknowledge_again_iff (fresh' : Uuid) (h : s.alertWithId id = some r)
    (hrec : s.Recovered r fresh) :
    (s.acknowledgeAlert fresh id).2.acknowledgeAlert fresh' id = s.acknowledgeAlert fresh id ↔
      r.2.key fresh' = r.2.key fresh ∨ s.alerts.get? (r.2.key fresh') = some r.2.acked := by
  have hagain := alertWithId_acked h hrec
  have hkey : (ackAt (r.2.key fresh) r).2.key fresh' = r.2.key fresh' := by
    unfold ackAt
    split <;> rfl
  have hacked : (ackAt (r.2.key fresh) r).2.acked = r.2.acked := by
    unfold ackAt
    split <;> rfl
  rw [acknowledgeAlert_found hagain, hkey, hacked, acknowledgeAlert_found h]
  have htable : ∀ t : OrderedTable CompositeKey AlertRow,
      (true, { s with alerts := t }) =
        (true, { s with alerts := s.alerts.insert (r.2.key fresh) r.2.acked }) ↔
      t = s.alerts.insert (r.2.key fresh) r.2.acked := by
    intro t
    constructor
    · intro ht
      exact congrArg (fun p : Bool × Store F => p.2.alerts) ht
    · rintro rfl
      rfl
  rw [htable, OrderedTable.insert_eq_self_iff]
  by_cases hsame : r.2.key fresh' = r.2.key fresh
  · simp [hsame]
  · simp [hsame, OrderedTable.get?_insert_ne]

theorem recovered_of_parses (hkeyed : s.AlertsKeyed) (h : s.alertWithId id = some r)
    (hparse : Uuid.parseStr id ≠ none) (fresh : Uuid) :
    s.Recovered r fresh ∧ ∀ fresh', r.2.key fresh' = r.2.key fresh := by
  obtain ⟨hmem, hid⟩ := alertWithId_mem h
  obtain ⟨u, hu⟩ := Option.ne_none_iff_exists'.mp hparse
  have hkey : ∀ fresh, r.2.key fresh = compositeKey r.2.tsNs u := by
    intro fresh
    simp [AlertRow.key, hid, hu]
  obtain ⟨fresh₀, hkey₀⟩ := hkeyed r hmem
  refine ⟨⟨r.2, ?_, rfl⟩, fun fresh' => by rw [hkey, hkey]⟩
  rw [hkey, ← hkey fresh₀, ← hkey₀]
  exact OrderedTable.get?_eq_some_iff.mpr hmem

theorem compositeKey_inj_id {ts : UInt64} {u v : Uuid} :
    compositeKey ts u = compositeKey ts v ↔ u = v :=
  ⟨compositeKey_id, fun h => by rw [h]⟩

theorem keyRecovered_iff (hkeyed : s.AlertsKeyed) (h : s.alertWithId id = some r) :
    s.KeyRecovered id fresh fresh' ↔ s.Recovered r fresh ∧
      (r.2.key fresh' = r.2.key fresh ∨ s.alerts.get? (r.2.key fresh') = some r.2.acked) := by
  by_cases hparse : Uuid.parseStr id = none
  · have hkey : ∀ fresh, r.2.key fresh = compositeKey r.2.tsNs fresh := by
      intro fresh
      simp [AlertRow.key, (alertWithId_mem h).2, hparse]
    simp [KeyRecovered, Recovered, h, hparse, hkey, compositeKey_inj_id]
  · have hrec := recovered_of_parses hkeyed h hparse fresh
    simp [KeyRecovered, hparse, hrec.1, hrec.2 fresh']

/-- On every log that calls have built, an acknowledgement sets one flag and changes nothing
else exactly when the rebuilt key is the one of a row it may set. -/
theorem acknowledges_only_iff (calls : List AlertCall) (id : String) (fresh fresh' : Uuid) :
    (afterAlerts calls : Store F).AcknowledgesOnly id fresh fresh' ↔
      (afterAlerts calls : Store F).KeyRecovered id fresh fresh' := by
  have hkeyed := alertsKeyed_after (F := F) calls
  generalize (afterAlerts calls : Store F) = s at hkeyed
  cases h : s.alertWithId id with
  | none =>
      have hno := alertWithId_eq_none.mp h
      have hnone : ∀ fresh, s.acknowledgeAlert fresh id = (false, s) := by
        intro fresh
        rw [acknowledgeAlert, h]
      simp [AcknowledgesOnly, KeyRecovered, h, hnone, hno]
  | some r =>
      have hfound : ∃ r ∈ s.alerts.rows, r.2.id = id := ⟨r, alertWithId_mem h⟩
      have hagain := fun hrec : s.Recovered r fresh => acknowledge_again_iff fresh' h hrec
      rw [keyRecovered_iff hkeyed h, AcknowledgesOnly]
      rw [acknowledgeAlert_found h] at hagain ⊢
      constructor
      · rintro ⟨-, -, hset, htwice⟩
        obtain ⟨k, hk, -, hrows⟩ := hset rfl
        have hrec := (acked_rows_iff h).mp ⟨k, hk, hrows⟩
        exact ⟨hrec, (hagain hrec).mp htwice⟩
      · rintro ⟨hrec, hdraw⟩
        obtain ⟨k, hk, hrows⟩ := (acked_rows_iff h).mpr hrec
        exact ⟨iff_of_true rfl hfound, by simp, fun _ => ⟨k, hk, rfl, hrows⟩,
          (hagain hrec).mpr hdraw⟩

/-- An alert under an id that is no UUID. -/
def legacyAlert : AlertRow where
  id := "legacy-17"
  agentId := "agent-1"
  severity := "high"
  title := "t"
  detail := "d"
  subject := none
  tsNs := 7
  acknowledged := false

/-- The acknowledged copy is a second row. -/
theorem acknowledge_duplicates :
    ¬ ∀ (calls : List AlertCall) (id : String) (fresh fresh' : Uuid),
      (afterAlerts calls : Store ℚ).AcknowledgesOnly id fresh fresh' := by
  intro h
  obtain ⟨-, -, hset, -⟩ :=
    h [.append (.ofDigit 0) legacyAlert] "legacy-17" (.ofDigit 1) (.ofDigit 2)
  obtain ⟨k, -, -, hrows⟩ := hset (by decide +kernel)
  have hlength := congrArg List.length hrows
  rw [List.length_map] at hlength
  exact absurd hlength (by decide +kernel)

end Store
end Aegis

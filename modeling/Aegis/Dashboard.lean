import Aegis.LiveFeed

/-!
# The dashboard's tables

The detection and score maps of the operator dashboard: read whole over the API,
a response at a time, and updated in between by the live feed. A response shows
the store as it was when it was taken; rendered after later events were applied, it takes
them back. The feed carries the verdict, the confidence and the time of a detection and
the value and the time of a score; the model and the reasons are those of the last response.
-/

namespace Aegis
variable {F : Type}

inductive Collection where
  | detections | scores
deriving DecidableEq, Repr

/-- What a live event tells of a row, as the browser reads it. -/
inductive Cell (F : Type) where
  | detection (verdict : String) (confidence : Option F) (tsNs : F)
  | score (score : Option F) (tsNs : F)

/-- `JSON.parse` of a float that the server prints: `null` unless it is finite. -/
def parsedNumber [JsonFloat F] (x : F) : Option F := if JsonFloat.finite x then some x else none

/-- `JSON.parse` of a time: the float next to it. -/
def parsedTime [JsonFloat F] (tsNs : UInt64) : F := JsonFloat.ofInt tsNs.toNat

def LiveEvent.update [JsonFloat F] : LiveEvent F → Option ((Collection × String) × Cell F)
  | .detection _ subject verdict confidence tsNs =>
      some ((.detections, subject),
        .detection verdict (parsedNumber confidence) (parsedTime tsNs))
  | .score _ subject value tsNs =>
      some ((.scores, subject), .score (parsedNumber value) (parsedTime tsNs))
  | .alert _ _ _ _ _ => none
  | .agentSeen _ _ _ => none

def DetectionRow.cell [JsonFloat F] (row : DetectionRow F) : Cell F :=
  .detection row.verdict (parsedNumber row.confidence) (parsedTime row.tsNs)

def ScoreRow.cell [JsonFloat F] (row : ScoreRow F) : Cell F :=
  .score (parsedNumber row.score) (parsedTime row.tsNs)

/-- The cells of the host's subjects. -/
def Store.cells [JsonFloat F] (hostId : AgentId) (s : Store F) :
    Collection × String → Option (Cell F)
  | (.detections, subject) =>
      (s.detections.get? (subjectKey hostId subject)).map DetectionRow.cell
  | (.scores, subject) => (s.scores.get? (subjectKey hostId subject)).map ScoreRow.cell

structure DashDetection (F : Type) where
  agentId : String
  subject : String
  verdict : String
  confidence : Option F
  model : Option String
  reasons : List String
  tsNs : F

structure DashScore (F : Type) where
  agentId : String
  subject : String
  score : Option F
  model : Option String
  tsNs : F

structure Dashboard (F : Type) where
  detections : OrderedTable String (DashDetection F)
  scores : OrderedTable String (DashScore F)

namespace Dashboard

def empty : Dashboard F := ⟨.empty, .empty⟩

/-- `subjectKey` of the dashboard, with a NUL between the parts. -/
def subjectKey (agentId subject : String) : String := agentId ++ "\x00" ++ subject

section Listeners
variable [JsonFloat F]

def shownDetection (row : DetectionRow F) : DashDetection F :=
  ⟨row.agentId, row.subject, row.verdict, parsedNumber row.confidence, some row.model,
    row.reasons, parsedTime row.tsNs⟩

def shownScore (row : ScoreRow F) : DashScore F :=
  ⟨row.agentId, row.subject, parsedNumber row.score, some row.model, parsedTime row.tsNs⟩

def loadDetections (d : Dashboard F) (rows : List (DetectionRow F)) : Dashboard F :=
  { d with
    detections := rows.foldl
      (fun t row => t.insert (subjectKey row.agentId row.subject) (shownDetection row)) .empty }

def loadScores (d : Dashboard F) (rows : List (ScoreRow F)) : Dashboard F :=
  { d with
    scores := rows.foldl
      (fun t row => t.insert (subjectKey row.agentId row.subject) (shownScore row)) .empty }

/-- The model and the reasons shown stay those of the last load. -/
def onDetection (d : Dashboard F) (agentId subject verdict : String) (confidence : F)
    (tsNs : UInt64) : Dashboard F :=
  let key := subjectKey agentId subject
  let prev := d.detections.get? key
  { d with
    detections := d.detections.insert key
      ⟨agentId, subject, verdict, parsedNumber confidence, prev.bind DashDetection.model,
        (prev.map DashDetection.reasons).getD [], parsedTime tsNs⟩ }

def onScore (d : Dashboard F) (agentId subject : String) (score : F) (tsNs : UInt64) :
    Dashboard F :=
  let key := subjectKey agentId subject
  { d with
    scores := d.scores.insert key
      ⟨agentId, subject, parsedNumber score, (d.scores.get? key).bind DashScore.model,
        parsedTime tsNs⟩ }

/-- The listeners of the feed, as far as they change the two maps. -/
def listen (d : Dashboard F) : LiveEvent F → Dashboard F
  | .detection agentId subject verdict confidence tsNs =>
      d.onDetection agentId subject verdict confidence tsNs
  | .score agentId subject value tsNs => d.onScore agentId subject value tsNs
  | .alert _ _ _ _ _ => d
  | .agentSeen _ _ _ => d

end Listeners

def cells (hostId : AgentId) (d : Dashboard F) : Collection × String → Option (Cell F)
  | (.detections, subject) => (d.detections.get? (subjectKey hostId subject)).map
      fun x => .detection x.verdict x.confidence x.tsNs
  | (.scores, subject) => (d.scores.get? (subjectKey hostId subject)).map
      fun x => .score x.score x.tsNs

end Dashboard

theorem Store.subjectKey_injective (agentId : String) :
    Function.Injective (Aegis.subjectKey agentId) := by
  intro a b h
  simpa [Aegis.subjectKey] using h

theorem Dashboard.subjectKey_injective (agentId : String) :
    Function.Injective (Dashboard.subjectKey agentId) := by
  intro a b h
  simpa [Dashboard.subjectKey] using h

/-- The agent whose record an event is about. -/
def LiveEvent.agentId : LiveEvent F → String
  | .detection agentId _ _ _ _ => agentId
  | .score agentId _ _ _ => agentId
  | .alert agentId _ _ _ _ => agentId
  | .agentSeen agentId _ _ => agentId

theorem Dashboard.listen_cells [JsonFloat F] {hostId : AgentId} (d : Dashboard F) {ev : LiveEvent F}
    (h : ev.isDerived = true → ev.agentId = hostId) :
    (d.listen ev).cells hostId = replay (d.cells hostId) ev.update.toList := by
  funext ⟨collection, subject⟩
  cases ev with
  | detection agentId subject' verdict confidence tsNs =>
      obtain rfl : agentId = hostId := h rfl
      cases collection with
      | detections =>
          simp [LiveEvent.update, listen, onDetection, cells, Function.update_apply,
            OrderedTable.get?_insert, (subjectKey_injective agentId).eq_iff]
          split_ifs <;> rfl
      | scores => simp [LiveEvent.update, listen, onDetection, cells]
  | score agentId subject' value tsNs =>
      obtain rfl : agentId = hostId := h rfl
      cases collection with
      | detections => simp [LiveEvent.update, listen, onScore, cells]
      | scores =>
          simp [LiveEvent.update, listen, onScore, cells, Function.update_apply,
            OrderedTable.get?_insert, (subjectKey_injective agentId).eq_iff]
          split_ifs <;> rfl
  | alert _ _ _ _ _ => rfl
  | agentSeen _ _ _ => rfl

/-- The detection and score tables hold the host's rows, each under its key. -/
structure Store.OwnRows (hostId : AgentId) (s : Store F) : Prop where
  detections : ∀ r ∈ s.detections.rows,
    r.1 = subjectKey hostId r.2.subject ∧ r.2.agentId = hostId
  scores : ∀ r ∈ s.scores.rows, r.1 = subjectKey hostId r.2.subject ∧ r.2.agentId = hostId

section Put
variable [JsonFloat F] {hostId : AgentId} {row : DerivedRow F}

theorem DerivedRow.put_cells (s : Store F) (alertId : Uuid) (h : row.agentId = hostId) :
    (row.put s alertId).cells hostId =
      replay (s.cells hostId) (LiveEvent.ofRow row).update.toList := by
  subst h
  funext ⟨collection, subject⟩
  cases row with
  | detection row =>
      cases collection with
      | detections =>
          simp [LiveEvent.update, LiveEvent.ofRow, DerivedRow.put, DerivedRow.agentId,
            Store.upsertDetection, Store.cells, Function.update_apply, OrderedTable.get?_insert,
            (Store.subjectKey_injective row.agentId).eq_iff]
          split_ifs <;> rfl
      | scores =>
          simp [LiveEvent.update, LiveEvent.ofRow, DerivedRow.put, Store.upsertDetection,
            Store.cells]
  | score row =>
      cases collection with
      | detections =>
          simp [LiveEvent.update, LiveEvent.ofRow, DerivedRow.put, Store.upsertScore, Store.cells]
      | scores =>
          simp [LiveEvent.update, LiveEvent.ofRow, DerivedRow.put, DerivedRow.agentId,
            Store.upsertScore, Store.cells, Function.update_apply, OrderedTable.get?_insert,
            (Store.subjectKey_injective row.agentId).eq_iff]
          split_ifs <;> rfl
  | alert row => rfl

omit [JsonFloat F] in
theorem DerivedRow.put_ownRows {s : Store F} (alertId : Uuid) (h : row.agentId = hostId)
    (hs : s.OwnRows hostId) : (row.put s alertId).OwnRows hostId := by
  subst h
  cases row with
  | detection row =>
      refine ⟨fun r hr => ?_, hs.scores⟩
      rcases OrderedTable.mem_insert_rows hr with rfl | hr
      · exact ⟨rfl, rfl⟩
      · exact hs.detections r hr
  | score row =>
      refine ⟨hs.detections, fun r hr => ?_⟩
      rcases OrderedTable.mem_insert_rows hr with rfl | hr
      · exact ⟨rfl, rfl⟩
      · exact hs.scores r hr
  | alert row => exact ⟨hs.detections, hs.scores⟩

end Put

namespace Dashboard
variable [JsonFloat F] {hostId : AgentId} {s : Store F}

theorem loadDetections_cells (d : Dashboard F) (hs : s.OwnRows hostId) (subject : String) :
    (d.loadDetections (s.detections.rows.map Prod.snd)).cells hostId (.detections, subject) =
      s.cells hostId (.detections, subject) := by
  have hkeys : ∀ r ∈ s.detections.rows, r.1 = Aegis.subjectKey hostId r.2.subject ∧
      subjectKey r.2.agentId r.2.subject = subjectKey hostId r.2.subject := by
    intro r hr
    exact ⟨(hs.detections r hr).1, by rw [(hs.detections r hr).2]⟩
  rw [cells, loadDetections, OrderedTable.get?_rekeyed s.detections DetectionRow.subject
    (Store.subjectKey_injective hostId) (subjectKey_injective hostId) hkeys, Option.map_map]
  rfl

theorem loadScores_cells (d : Dashboard F) (hs : s.OwnRows hostId) (subject : String) :
    (d.loadScores (s.scores.rows.map Prod.snd)).cells hostId (.scores, subject) =
      s.cells hostId (.scores, subject) := by
  have hkeys : ∀ r ∈ s.scores.rows, r.1 = Aegis.subjectKey hostId r.2.subject ∧
      subjectKey r.2.agentId r.2.subject = subjectKey hostId r.2.subject := by
    intro r hr
    exact ⟨(hs.scores r hr).1, by rw [(hs.scores r hr).2]⟩
  rw [cells, loadScores, OrderedTable.get?_rekeyed s.scores ScoreRow.subject
    (Store.subjectKey_injective hostId) (subjectKey_injective hostId) hkeys, Option.map_map]
  rfl

end Dashboard

def updates [JsonFloat F] (l : List (LiveEvent F)) : List ((Collection × String) × Cell F) :=
  l.filterMap LiveEvent.update

theorem updates_append [JsonFloat F] (l m : List (LiveEvent F)) :
    updates (l ++ m) = updates l ++ updates m :=
  List.filterMap_append

theorem updates_filter [JsonFloat F] (l : List (LiveEvent F)) :
    updates (l.filter LiveEvent.isDerived) = updates l := by
  induction l with
  | nil => rfl
  | cons ev l ih =>
      cases ev with
      | agentSeen _ _ _ => exact ih
      | score _ _ _ _ => exact congrArg (List.cons _) ih
      | detection _ _ _ _ _ => exact congrArg (List.cons _) ih
      | alert _ _ _ _ _ => exact ih

theorem Store.cells_congr [JsonFloat F] {s t : Store F} (hd : t.detections = s.detections)
    (hs : t.scores = s.scores) (hostId : AgentId) : t.cells hostId = s.cells hostId := by
  funext ⟨collection, subject⟩
  cases collection with
  | detections => simp only [Store.cells, hd]
  | scores => simp only [Store.cells, hs]

theorem Ingest.Move.tables [JsonFloat F] {s u : Ingest F} {a : Ingest.Act F}
    (h : Ingest.Move s a u) :
    u.store.detections = s.store.detections ∧ u.store.scores = s.store.scores := by
  cases h with
  | store hses hr hholding hkind hwrite => exact Store.writeEvent_detections hwrite
  | ack now touched hses hr hholding htodo => exact ⟨by simp, by simp⟩
  | unsent now touched hses hnone => exact ⟨by simp, by simp⟩
  | _ => exact ⟨rfl, rfl⟩

/-- The sink puts the row it wrote into tables it otherwise leaves alone. -/
theorem StoreSink.handle_tables [JsonFloat F] (s : Store F) (alertId : Uuid)
    (logged committed : Bool) (ev : Event F) :
    ∃ t : Store F, t.detections = s.detections ∧ t.scores = s.scores ∧
      (handle s alertId logged committed ev).1 =
        (handle s alertId logged committed ev).2.elim t fun row => row.put t alertId := by
  rw [handle]
  rcases outcome_cases s alertId logged committed ev with
    ⟨hout, -⟩ | ⟨next, -, hwrite, ⟨hout, -⟩ | ⟨hout, -⟩ | ⟨row, hout, -⟩⟩ <;> rw [hout]
  · exact ⟨s, rfl, rfl, rfl⟩
  all_goals
    obtain ⟨hd, hs⟩ := Store.writeEvent_detections hwrite
  · exact ⟨next, hd, hs, rfl⟩
  · exact ⟨next.touchAgent ev.agentId ev.tsNs, by simp [hd], by simp [hs], rfl⟩
  · exact ⟨next, hd, hs, rfl⟩

namespace Live
variable [F64 F] {cfg : ServerConfig F}

/-- What is announced of a step is what it changes of the host's cells. -/
theorem server_cells {s u : Server F} {a : Server.Act F} (hs : s.Sourced cfg)
    (h : s.step cfg a = some u) (readable : Bool) :
    u.ingest.store.cells cfg.hostId = replay (s.ingest.store.cells cfg.hostId)
        (updates (announced s readable a).toList) ∧
      (s.ingest.store.OwnRows cfg.hostId → u.ingest.store.OwnRows cfg.hostId) := by
  have hsame : ∀ {t : Store F}, t.detections = s.ingest.store.detections →
      t.scores = s.ingest.store.scores → t.cells cfg.hostId = s.ingest.store.cells cfg.hostId ∧
      (s.ingest.store.OwnRows cfg.hostId → t.OwnRows cfg.hostId) := by
    intro t hd hs
    exact ⟨Store.cells_congr hd hs _, fun hown => ⟨hd ▸ hown.detections, hs ▸ hown.scores⟩⟩
  cases Server.step_move cfg h with
  | ingest hi =>
      obtain ⟨hd, hs⟩ := (Ingest.step_move hi).tables
      exact hsame hd hs
  | @sink t rest alertId logged committed hq =>
      have ht : t ∈ s.queued := by simp [Server.queued, hq]
      have hupdates : updates (announced s readable (.sink alertId logged committed)).toList =
          updates ((StoreSink.handle s.ingest.store alertId logged committed
            t.event).2.map LiveEvent.ofRow).toList := by
        rw [← StoreSink.announce_derived _ _ _ _ readable, updates_filter, announced, hq]
        rfl
      obtain ⟨base, hd, hscores, hput⟩ :=
        StoreSink.handle_tables s.ingest.store alertId logged committed t.event
      obtain ⟨hcells, hrows⟩ := hsame hd hscores
      rw [hupdates]
      dsimp only
      rw [hput]
      cases hrow : (StoreSink.handle s.ingest.store alertId logged committed t.event).2 with
      | none => exact ⟨hcells, hrows⟩
      | some row =>
          have hown := hs.derived ht (StoreSink.handle_row hrow)
          refine ⟨?_, fun h => DerivedRow.put_ownRows alertId hown (hrows h)⟩
          rw [← hcells]
          exact DerivedRow.put_cells base alertId hown
  | _ => exact hsame rfl rfl

theorem announced_own {s u : Server F} {a : Server.Act F} (hs : s.Sourced cfg)
    (h : s.step cfg a = some u) (readable : Bool) :
    ∀ ev ∈ announced s readable a, ev.isDerived = true → ev.agentId = cfg.hostId := by
  intro ev hev hderived
  cases Server.step_move cfg h with
  | @sink t rest alertId logged committed hq =>
      have ht : t ∈ s.queued := by simp [Server.queued, hq]
      have hannounce : ev ∈ StoreSink.announce s.ingest.store alertId logged committed readable
          t.event := by
        simpa [announced, hq] using hev
      have hmem : ev ∈ ((StoreSink.handle s.ingest.store alertId logged committed
          t.event).2.map LiveEvent.ofRow).toList := by
        rw [← StoreSink.announce_derived _ _ _ _ readable]
        exact List.mem_filter.mpr ⟨Option.mem_toList.mpr hannounce, hderived⟩
      obtain ⟨row, hrow, rfl⟩ := Option.map_eq_some_iff.mp (Option.mem_toList.mp hmem)
      have hown := hs.derived ht (StoreSink.handle_row hrow)
      rw [← hown]
      cases row <;> rfl
  | _ => cases hev

theorem step_reader {c : BroadcastChannel (LiveEvent F)} {s u : Live c} {a : Act F}
    (h : step cfg s a = some u) {id : ℕ} {r : Reader (LiveEvent F)}
    (hr : s.feed.readers.get? id = some r) (hpoll : a ≠ .poll id) (hleave : a ≠ .leave id) :
    u.feed.readers.get? id = some r := by
  cases a with
  | server b readable =>
      obtain ⟨server, -, rfl⟩ := Option.map_eq_some_iff.mp h
      cases announced s.server readable b with
      | none => exact hr
      | some ev => exact hr
  | subscribe id' =>
      obtain ⟨feed, hfeed, rfl⟩ := Option.map_eq_some_iff.mp h
      simp only [Feed.step] at hfeed
      split_ifs at hfeed with hnew
      cases hfeed
      have hne : id ≠ id' := by
        rintro rfl
        rw [hr] at hnew
        cases hnew
      rw [← hr]
      exact OrderedTable.get?_insert_ne _ _ hne
  | poll id' =>
      obtain ⟨feed, hfeed, rfl⟩ := Option.map_eq_some_iff.mp h
      obtain ⟨r', -, rfl⟩ := Option.map_eq_some_iff.mp hfeed
      have hne : id ≠ id' := fun he => hpoll (he ▸ rfl)
      rw [← hr]
      exact OrderedTable.get?_insert_ne _ _ hne
  | leave id' =>
      cases h
      have hne : id ≠ id' := fun he => hleave (he ▸ rfl)
      rw [← hr]
      exact OrderedTable.get?_erase_ne _ hne

end Live

/-- A response on its way: the rows as they were when it was taken, and how much
had been announced by then. -/
structure Response (F : Type) where
  collection : Collection
  detections : List (DetectionRow F)
  scores : List (ScoreRow F)
  taken : ℕ

/-- The rest of the system, and the dashboard that reads stream `stream`. -/
structure Console (c : BroadcastChannel (LiveEvent F)) where
  live : Live c
  stream : ℕ
  dashboard : Dashboard F
  inflight : List (Response F)

namespace Console

inductive Act (F : Type) where
  | live (a : Live.Act F)
  | poll
  | request (collection : Collection)
  | render (i : ℕ)

variable {c : BroadcastChannel (LiveEvent F)}

def start (c : BroadcastChannel (LiveEvent F)) (store : Store F) (stream : ℕ) : Console c :=
  ⟨.start c store, stream, .empty, []⟩

/-- The answer of the collection's `GET` handler without a query. -/
def respond (s : Live c) : Collection → Response F
  | .detections => ⟨.detections, s.server.ingest.store.detections.rows.map Prod.snd, [],
      s.feed.history.length⟩
  | .scores => ⟨.scores, [], s.server.ingest.store.scores.rows.map Prod.snd,
      s.feed.history.length⟩

def load [JsonFloat F] (d : Dashboard F) (r : Response F) : Dashboard F :=
  match r.collection with
  | .detections => d.loadDetections r.detections
  | .scores => d.loadScores r.scores

def hear [JsonFloat F] (d : Dashboard F) : Received (LiveEvent F) → Dashboard F
  | .value ev => d.listen ev
  | .lagged _ => d
  | .empty => d

section Step
variable [F64 F] (cfg : ServerConfig F)

/-- Only the dashboard polls its own stream. -/
def step (s : Console c) : Act F → Option (Console c)
  | .live a => match a with
    | .poll id => if id = s.stream then none else
        (s.live.step cfg (.poll id)).map fun live => { s with live := live }
    | a => (s.live.step cfg a).map fun live => { s with live := live }
  | .poll => do
      let r ← s.live.feed.readers.get? s.stream
      let live ← s.live.step cfg (.poll s.stream)
      return { s with
        live := live
        dashboard := hear s.dashboard (c.recv s.live.feed.channel r.next).1 }
  | .request collection => some { s with inflight := s.inflight ++ [respond s.live collection] }
  | .render i => (s.inflight[i]?).map fun r =>
      { s with dashboard := load s.dashboard r, inflight := s.inflight.eraseIdx i }

/-- No event is skipped, and no response is rendered after an event that it
does not have; the stream stays. -/
def Steady (collection : Collection) (s : Console c) : Act F → Prop
  | .live (.leave id) => id ≠ s.stream
  | .live _ => True
  | .poll => ∀ r ∈ s.live.feed.readers.get? s.stream,
      s.live.feed.history.length ≤ r.next + liveChannelCapacity
  | .request _ => True
  | .render i => ∀ resp ∈ s.inflight[i]?, resp.collection = collection →
      ∀ r ∈ s.live.feed.readers.get? s.stream, r.next ≤ resp.taken

omit [F64 F] in
instance (collection : Collection) (s : Console c) (a : Act F) :
    Decidable (Steady collection s a) :=
  match a with
  | .live (.leave id) => inferInstanceAs (Decidable (id ≠ s.stream))
  | .live (.server _ _) => .isTrue trivial
  | .live (.subscribe _) => .isTrue trivial
  | .live (.poll _) => .isTrue trivial
  | .poll => inferInstanceAs (Decidable (∀ r ∈ s.live.feed.readers.get? s.stream,
      s.live.feed.history.length ≤ r.next + liveChannelCapacity))
  | .request _ => .isTrue trivial
  | .render i => inferInstanceAs (Decidable (∀ resp ∈ s.inflight[i]?,
      resp.collection = collection → ∀ r ∈ s.live.feed.readers.get? s.stream,
        r.next ≤ resp.taken))

theorem step_cases {s u : Console c} {a : Act F} (h : step cfg s a = some u) :
    (∃ b live, a = .live b ∧ (∀ id, b = .poll id → id ≠ s.stream) ∧
      s.live.step cfg b = some live ∧ u = { s with live := live }) ∨
    (∃ r live, a = .poll ∧ s.live.feed.readers.get? s.stream = some r ∧
      s.live.step cfg (.poll s.stream) = some live ∧ u =
        { s with
          live := live
          dashboard := hear s.dashboard (c.recv s.live.feed.channel r.next).1 }) ∨
    (∃ collection, a = .request collection ∧
      u = { s with inflight := s.inflight ++ [respond s.live collection] }) ∨
    ∃ i r, a = .render i ∧ s.inflight[i]? = some r ∧
      u = { s with dashboard := load s.dashboard r, inflight := s.inflight.eraseIdx i } := by
  cases a with
  | live b =>
      left
      by_cases hown : b = .poll s.stream
      · rw [hown] at h
        simp [step] at h
      · have hother : ∀ id, b = .poll id → id ≠ s.stream := by
          intro id hid hsame
          exact hown (hsame ▸ hid)
        have hlive : (s.live.step cfg b).map (fun live => { s with live := live }) = some u := by
          cases b with
          | poll id => simpa only [step, if_neg (hother id rfl)] using h
          | _ => exact h
        obtain ⟨live, hstep, rfl⟩ := Option.map_eq_some_iff.mp hlive
        exact ⟨b, live, rfl, hother, hstep, rfl⟩
  | poll =>
      simp only [step, Option.bind_eq_bind, Option.bind_eq_some_iff, Option.pure_def,
        Option.some.injEq] at h
      obtain ⟨r, hr, live, hstep, rfl⟩ := h
      exact Or.inr (Or.inl ⟨r, live, rfl, hr, hstep, rfl⟩)
  | request collection =>
      cases h
      exact Or.inr (Or.inr (Or.inl ⟨collection, rfl, rfl⟩))
  | render i =>
      obtain ⟨r, hr, rfl⟩ := Option.map_eq_some_iff.mp h
      exact Or.inr (Or.inr (Or.inr ⟨i, r, rfl, hr, rfl⟩))

end Step

variable [F64 F] {cfg : ServerConfig F} {m₀ : Collection × String → Option (Cell F)}

/-- The tables are what was announced, replayed over what they were at the start, and each
response is as much of it as had been announced when it was taken. -/
structure Sound (cfg : ServerConfig F) (m₀ : Collection × String → Option (Cell F))
    (s : Console c) : Prop where
  live : s.live.Sound cfg
  rows : s.live.server.ingest.store.OwnRows cfg.hostId
  own : ∀ ev ∈ s.live.feed.history, ev.isDerived = true → ev.agentId = cfg.hostId
  cells : s.live.server.ingest.store.cells cfg.hostId = replay m₀ (updates s.live.feed.history)
  inflight : ∀ r ∈ s.inflight, r.taken ≤ s.live.feed.history.length ∧ ∀ d subject,
    (load d r).cells cfg.hostId (r.collection, subject) =
      replay m₀ (updates (s.live.feed.history.take r.taken)) (r.collection, subject)

theorem start_sound {store : Store F} (hown : store.OwnRows cfg.hostId) (stream : ℕ) :
    Sound cfg (store.cells cfg.hostId) (start c store stream) where
  live := Live.start_sound store
  rows := hown
  own := fun _ h => nomatch h
  cells := rfl
  inflight := fun _ h => nomatch h

theorem Sound.advance (hc : c.Documented) {s : Console c} (h : Sound cfg m₀ s) {a : Live.Act F}
    {live : Live c} (hstep : s.live.step cfg a = some live) :
    Sound cfg m₀ { s with live := live } := by
  rcases Live.step_cases cfg hstep with ⟨b, readable, rfl, hserver, hfeed⟩ |
    ⟨b, -, hserver, hsame, -⟩
  · obtain ⟨hcells, hrows⟩ := Live.server_cells h.live.sourced hserver readable
    have hhistory : live.feed.history = s.live.feed.history ++
        (Live.announced s.live.server readable b).toList := by
      rw [hfeed, Live.publish_history]
    refine ⟨Live.step_sound hc h.live hstep, hrows h.rows, ?_, ?_, ?_⟩
    · rw [hhistory]
      intro ev hev
      rcases List.mem_append.mp hev with hev | hev
      · exact h.own ev hev
      · exact Live.announced_own h.live.sourced hserver readable ev (Option.mem_toList.mp hev)
    · rw [hcells, hhistory, updates_append, replay_append, h.cells]
    · rw [hhistory]
      intro r hr
      obtain ⟨htaken, hload⟩ := h.inflight r hr
      refine ⟨htaken.trans (by simp), fun d subject => ?_⟩
      rw [hload d subject, List.take_append_of_le_length htaken]
  · exact ⟨Live.step_sound hc h.live hstep, hserver ▸ h.rows, hsame ▸ h.own,
      by rw [hserver, hsame, h.cells], hsame ▸ h.inflight⟩

/-- A response that is taken now shows all that was announced. -/
theorem Sound.respond {s : Console c} (h : Sound cfg m₀ s) (collection : Collection)
    (d : Dashboard F) (subject : String) :
    (load d (respond s.live collection)).cells cfg.hostId (collection, subject) =
      replay m₀ (updates s.live.feed.history) (collection, subject) := by
  rw [← h.cells]
  cases collection with
  | detections => exact d.loadDetections_cells h.rows subject
  | scores => exact d.loadScores_cells h.rows subject

theorem step_sound (hc : c.Documented) {s u : Console c} {a : Act F} (h : Sound cfg m₀ s)
    (hstep : step cfg s a = some u) : Sound cfg m₀ u := by
  rcases step_cases cfg hstep with ⟨b, live, -, -, hlive, rfl⟩ | ⟨r, live, -, -, hlive, rfl⟩ |
    ⟨collection, -, rfl⟩ | ⟨i, r, -, -, rfl⟩
  · exact h.advance hc hlive
  · obtain ⟨hsound, hrows, hown, hcells, hinflight⟩ := h.advance hc hlive
    exact ⟨hsound, hrows, hown, hcells, hinflight⟩
  · refine ⟨h.live, h.rows, h.own, h.cells, fun r hr => ?_⟩
    rcases List.mem_append.mp hr with hr | hr
    · exact h.inflight r hr
    · rw [List.mem_singleton.mp hr]
      have htaken : (respond s.live collection).taken = s.live.feed.history.length := by
        cases collection <;> rfl
      have hcollection : (respond s.live collection).collection = collection := by
        cases collection <;> rfl
      rw [htaken, hcollection, List.take_length]
      exact ⟨le_rfl, fun d subject => h.respond collection d subject⟩
  · exact ⟨h.live, h.rows, h.own, h.cells,
      fun r hr => h.inflight r ((List.eraseIdx_sublist s.inflight i).subset hr)⟩

theorem run_sound (hc : c.Documented) {store : Store F} (hown : store.OwnRows cfg.hostId)
    {stream : ℕ} {l : List (Act F)} {s : Console c}
    (h : FreeRun (step cfg) (start c store stream) l s) : Sound cfg (store.cells cfg.hostId) s :=
  h.invariant (Sound cfg _) (fun _ _ _ hs _ hstep => step_sound hc hs hstep)
    (start_sound hown stream)

theorem load_other (d : Dashboard F) {resp : Response F} {collection : Collection}
    (h : resp.collection ≠ collection) (hostId : AgentId) (subject : String) :
    (load d resp).cells hostId (collection, subject) = d.cells hostId (collection, subject) := by
  unfold load
  cases hresp : resp.collection with
  | detections =>
      cases collection with
      | detections => exact (h hresp).elim
      | scores => rfl
  | scores =>
      cases collection with
      | detections => rfl
      | scores => exact (h hresp).elim

/-- The map of a collection, with what is announced and not yet read replayed
over it, is the collection's table. -/
structure Current (cfg : ServerConfig F) (collection : Collection) (s : Console c)
    (r : Reader (LiveEvent F)) : Prop where
  stream : s.live.feed.readers.get? s.stream = some r
  cells : ∀ subject, replay (s.dashboard.cells cfg.hostId)
      (updates (s.live.feed.history.drop r.next)) (collection, subject) =
    s.live.server.ingest.store.cells cfg.hostId (collection, subject)

theorem Sound.render {s : Console c} (h : Sound cfg m₀ s) {r : Reader (LiveEvent F)}
    (hr : s.live.feed.readers.get? s.stream = some r) {resp : Response F}
    (hresp : resp ∈ s.inflight) (hintime : r.next ≤ resp.taken) (inflight : List (Response F)) :
    Current cfg resp.collection
      { s with dashboard := load s.dashboard resp, inflight := inflight } r where
  stream := hr
  cells := by
    intro subject
    obtain ⟨htaken, hload⟩ := h.inflight resp hresp
    -- what the stream has yet to read, up to where the response was taken and from there on
    obtain ⟨mid, hmid⟩ := List.take_prefix_take_left (l := s.live.feed.history) hintime
    have hsplit : s.live.feed.history.drop r.next = mid ++ s.live.feed.history.drop resp.taken := by
      have hwhole : s.live.feed.history.take r.next ++ s.live.feed.history.drop r.next =
          s.live.feed.history.take r.next ++ (mid ++ s.live.feed.history.drop resp.taken) := by
        rw [List.take_append_drop, ← List.append_assoc, hmid, List.take_append_drop]
      exact List.append_cancel_left hwhole
    have hagain : replay (replay m₀ (updates (s.live.feed.history.take resp.taken)))
        (updates mid) = replay m₀ (updates (s.live.feed.history.take resp.taken)) := by
      rw [← hmid, updates_append, replay_suffix]
    rw [replay_congr (hload s.dashboard subject), hsplit, updates_append, replay_append, hagain,
      ← replay_append, ← updates_append, List.take_append_drop, h.cells]

/-- What the server writes is replayed once it is announced. -/
theorem Current.advance {collection : Collection} {s : Console c} {r : Reader (LiveEvent F)}
    (hs : Sound cfg m₀ s) (h : Current cfg collection s r) {a : Live.Act F} {live : Live c}
    (hstep : s.live.step cfg a = some live) (hpoll : a ≠ .poll s.stream)
    (hleave : a ≠ .leave s.stream) : Current cfg collection { s with live := live } r where
  stream := Live.step_reader hstep h.stream hpoll hleave
  cells := by
    intro subject
    have hnext := (hs.live.feed.follows s.stream r h.stream).next
    rcases Live.step_cases cfg hstep with ⟨b, readable, rfl, hserver, hfeed⟩ |
      ⟨b, -, hserver, hsame, -⟩
    · obtain ⟨hcells, -⟩ := Live.server_cells hs.live.sourced hserver readable
      rw [hcells, hfeed, Live.publish_history, List.drop_append_of_le_length hnext,
        updates_append, replay_append]
      exact replay_congr (h.cells subject) _
    · rw [hserver, hsame]
      exact h.cells subject

theorem Current.poll (hc : c.Documented) {collection : Collection} {s : Console c}
    {r : Reader (LiveEvent F)} (hs : Sound cfg m₀ s) (h : Current cfg collection s r)
    (hprompt : s.live.feed.history.length ≤ r.next + liveChannelCapacity) {live : Live c}
    (hstep : s.live.step cfg (.poll s.stream) = some live) :
    ∃ r', Current cfg collection
      { s with
        live := live
        dashboard := hear s.dashboard (c.recv s.live.feed.channel r.next).1 } r' := by
  obtain ⟨feed, hfeed, rfl⟩ := Option.map_eq_some_iff.mp hstep
  simp only [Feed.step, h.stream, Option.map_some, Option.some.injEq] at hfeed
  subst hfeed
  refine ⟨r.poll c s.live.feed.channel, OrderedTable.get?_insert_self _ _ _, fun subject => ?_⟩
  have hcells := h.cells subject
  rw [Reader.poll, hs.live.feed.holds,
    hc.value Live.liveChannelCapacity_isPowerOfTwo s.live.feed.history r.next hprompt]
  cases hev : s.live.feed.history[r.next]? with
  | none => exact hcells
  | some ev =>
      obtain ⟨hlt, rfl⟩ := List.getElem?_eq_some_iff.mp hev
      have hown := hs.own _ (List.getElem_mem hlt)
      rw [List.drop_eq_getElem_cons hlt] at hcells
      dsimp only [hear]
      rw [Dashboard.listen_cells s.dashboard hown, ← replay_append, ← hcells]
      congr 1
      exact (updates_append [_] _).symm

theorem Current.step (hc : c.Documented) {collection : Collection} {s u : Console c}
    {r : Reader (LiveEvent F)} (hs : Sound cfg m₀ s) (h : Current cfg collection s r) {a : Act F}
    (ha : Steady collection s a) (hstep : step cfg s a = some u) :
    ∃ r', Current cfg collection u r' := by
  rcases step_cases cfg hstep with ⟨b, live, rfl, hother, hlive, rfl⟩ |
    ⟨r₁, live, rfl, hr₁, hlive, rfl⟩ | ⟨c, rfl, rfl⟩ | ⟨i, resp, rfl, hresp, rfl⟩
  · refine ⟨r, h.advance hs hlive (fun hb => hother _ hb rfl) ?_⟩
    rintro rfl
    exact ha rfl
  · obtain rfl : r₁ = r := Option.some.inj (hr₁.symm.trans h.stream)
    exact h.poll hc hs (ha r₁ hr₁) hlive
  · exact ⟨r, h.stream, h.cells⟩
  · by_cases hc : resp.collection = collection
    · subst hc
      exact ⟨r, hs.render h.stream (List.mem_of_getElem? hresp) (ha resp hresp rfl r h.stream) _⟩
    · refine ⟨r, h.stream, fun subject => ?_⟩
      rw [← h.cells subject]
      exact replay_congr (load_other s.dashboard hc _ subject) _

variable (cfg) in
/-- Once a response is rendered before the stream has read past it, the map is the store's
table with what the stream has yet to read undone, and equal to it whenever the stream has
caught up, as long as the stream does not lag or end and no later response is late. -/
theorem dashboard_converges (hc : c.Documented) {store : Store F}
    (hown : store.OwnRows cfg.hostId) {stream : ℕ} {l : List (Act F)} {s : Console c}
    (h : FreeRun (step cfg) (start c store stream) l s) {r : Reader (LiveEvent F)}
    (hr : s.live.feed.readers.get? s.stream = some r) {i : ℕ} {resp : Response F}
    (hresp : s.inflight[i]? = some resp) (hintime : r.next ≤ resp.taken)
    {l' : List (Act F)} {u : Console c}
    (h' : GuardedRun (step cfg) (Steady resp.collection) s (.render i :: l') u) :
    ∃ r', Current cfg resp.collection u r' ∧ (r'.next = u.live.feed.history.length →
      ∀ subject, u.dashboard.cells cfg.hostId (resp.collection, subject) =
        u.live.server.ingest.store.cells cfg.hostId (resp.collection, subject)) := by
  have hs := run_sound hc hown h
  obtain ⟨v, hrender, hrest⟩ : ∃ v, step cfg s (.render i) = some v ∧
      GuardedRun (step cfg) (Steady resp.collection) v l' u := by
    cases h' with
    | cons _ ht hrest => exact ⟨_, ht, hrest⟩
  have hv : v =
      { s with dashboard := load s.dashboard resp, inflight := s.inflight.eraseIdx i } := by
    simpa [step, hresp] using hrender.symm
  have hcurrent : ∃ r', Current cfg resp.collection v r' := by
    rw [hv]
    exact ⟨r, hs.render hr (List.mem_of_getElem? hresp) hintime _⟩
  have hkeep : ∀ (s : Console c) a (u : Console c), (Sound cfg (store.cells cfg.hostId) s ∧
      ∃ r', Current cfg resp.collection s r') → Steady resp.collection s a →
      step cfg s a = some u → Sound cfg (store.cells cfg.hostId) u ∧
      ∃ r', Current cfg resp.collection u r' := by
    rintro s a u ⟨hs, r', hr'⟩ ha hstep
    exact ⟨step_sound hc hs hstep, hr'.step hc hs ha hstep⟩
  obtain ⟨-, r', hr'⟩ := hrest.invariant _ hkeep ⟨step_sound hc hs hrender, hcurrent⟩
  refine ⟨r', hr', fun hcaught subject => ?_⟩
  have hcells := hr'.cells subject
  rwa [hcaught, List.drop_length] at hcells

/-- The scores are requested before one is written. -/
def requestedRun : List (Act ℚ) :=
  [.live (.subscribe 0), .request .scores] ++
    Server.scoredRun.map (fun a => .live (.server a true))

/-- They are rendered before the score is read off the stream. -/
theorem dashboard_converges_scored :
    ∃ s ∈ execute (step (.default : ServerConfig ℚ)) (fun _ _ => True)
        (start Broadcast.listed .empty 0) requestedRun,
      ∃ u ∈ execute (step (.default : ServerConfig ℚ)) (Steady .scores) s [.render 0, .poll],
        u.live.server.ingest.store.scores.rows.length = 1 ∧
        ∀ subject, u.dashboard.cells "aegisd" (.scores, subject) =
          u.live.server.ingest.store.cells "aegisd" (.scores, subject) := by
  have hend : ∃ s ∈ execute (step (.default : ServerConfig ℚ)) (fun _ _ => True)
        (start Broadcast.listed .empty 0) requestedRun,
      (∃ r ∈ s.live.feed.readers.get? s.stream, ∃ resp ∈ s.inflight[0]?,
        resp.collection = .scores ∧ r.next ≤ resp.taken) ∧
      ∃ u ∈ execute (step (.default : ServerConfig ℚ)) (Steady .scores) s [.render 0, .poll],
        u.live.server.ingest.store.scores.rows.length = 1 ∧
        ∃ r ∈ u.live.feed.readers.get? u.stream, r.next = u.live.feed.history.length := by
    decide +kernel
  obtain ⟨s, hs, ⟨r, hr, resp, hresp, hscores, hintime⟩, u, hu, hwritten, r', hr', hcaught⟩ := hend
  have hown : (Store.empty : Store ℚ).OwnRows "aegisd" := by
    constructor <;> exact fun r hr => nomatch hr
  have hrun := run_of_execute hu
  rw [← hscores] at hrun
  obtain ⟨r₁, hcurrent, hequal⟩ := dashboard_converges .default Broadcast.listed_documented hown
    (run_of_execute hs) hr hresp hintime hrun
  obtain rfl : r₁ = r' := Option.some.inj (hcurrent.stream.symm.trans hr')
  rw [hscores] at hequal
  exact ⟨s, hs, u, hu, hwritten, hequal hcaught⟩

/-- A response that is rendered after the event it does not have takes the score off the map,
though the stream has caught up and the store has it. -/
theorem late_response_stale :
    ∃ s ∈ execute (step (.default : ServerConfig ℚ)) (fun _ _ => True)
        (start Broadcast.listed .empty 0) (requestedRun ++ [.poll, .render 0]),
      (∃ r ∈ s.live.feed.readers.get? s.stream, r.next = s.live.feed.history.length) ∧
      s.dashboard.scores.rows.length = 0 ∧
      s.live.server.ingest.store.scores.rows.length = 1 := by
  decide +kernel

end Console
end Aegis

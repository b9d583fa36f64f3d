import Aegis.Codec
import Aegis.Wire

/-!
# Reading an encoded event back

`encode` and `decode` of `spill.rs`, and `write_message` and `read_message` of
`aegis-proto`. Reading back gives the event with its floats as the parser reads
them, provided the text has one tag per payload and does not nest past the
parser's limit.
-/

namespace Aegis

namespace Json
variable {F : Type}

@[simp] theorem toU64_ofU64 (n : UInt64) : toU64 (ofU64 n : Json F) = some n := by
  simp [toU64, ofU64]

@[simp] theorem toU32_ofU32 (n : UInt32) : toU32 (ofU32 n : Json F) = some n := by
  have := n.toNat_lt
  simp only [toU32, ofU32]
  rw [if_pos (by omega)]
  simp

@[simp] theorem toOption_ofOption (s : Option String) :
    toOption (ofOption s : Json F) = some s := by
  cases s <;> rfl

theorem mapM_map_some {α β : Type} (f : α → Option β) (g : β → α) (h : ∀ b, f (g b) = some b)
    (l : List β) : (l.map g).mapM f = some l := by
  induction l with
  | nil => rfl
  | cons b l ih => simp [h, ih]

@[simp] theorem toList_strs (l : List String) :
    toList toStr (arr (l.map str) : Json F) = some l :=
  mapM_map_some toStr str (fun _ => rfl) l

theorem mapM_isSome {α β : Type} {f : α → Option β} {l : List α} (h : ∀ a ∈ l, (f a).isSome) :
    (l.mapM f).isSome := by
  induction l with
  | nil => rfl
  | cons a l ih =>
      obtain ⟨b, hb⟩ := Option.isSome_iff_exists.mp (h a List.mem_cons_self)
      obtain ⟨bs, hbs⟩ :=
        Option.isSome_iff_exists.mp (ih fun x hx => h x (List.mem_cons_of_mem _ hx))
      simp [hb, hbs]

theorem field_isSome {α : Type} {k : String} {read : Json F → Option α}
    {entries : List (String × Json F)} {a : α} (h : field k read entries = some a) :
    ∃ j, read j = some a := by
  unfold field at h
  split at h
  · exact ⟨_, h⟩
  · cases h

theorem toTable_ofTable {α β : Type} (read : Json F → Option β) (f : α → Json F) (g : α → β)
    (h : ∀ a, read (f a) = some (g a)) (t : OrderedTable String α) :
    toTable read (ofTable f t) = some (t.mapValues g) := by
  have hrows : (t.rows.map fun r => (r.1, f r.2)).mapM
      (fun e => (read e.2).map fun v => (e.1, v)) = some (t.mapValues g).rows := by
    rw [OrderedTable.mapValues_rows]
    induction t.rows with
    | nil => rfl
    | cons r l ih => simp [h, ih]
  simp only [toTable, ofTable, hrows, Option.map_some, OrderedTable.ofList_rows]

@[simp] theorem toTable_strs (t : OrderedTable String String) :
    toTable toStr (ofTable str t : Json F) = some t := by
  rw [toTable_ofTable toStr str id fun _ => rfl]
  exact congrArg some ((OrderedTable.mapValues_eq_self_iff id t).mpr fun _ _ => rfl)

theorem toUuid_str (u : Uuid) : toUuid (str u.text : Json F) = some u := by
  simp [toUuid]

theorem ofTable_depth {α : Type} {f : α → Json F} (h : ∀ a, (f a).depth = 0)
    (t : OrderedTable String α) : (ofTable f t).depth = 1 := by
  have hzero : entriesDepth (t.rows.map fun r => (r.1, f r.2)) = 0 := by
    refine Nat.le_zero.mp ((entriesDepth_le_iff _ 0).mpr fun e he => ?_)
    obtain ⟨r, _, rfl⟩ := List.mem_map.mp he
    exact (h r.2).le
  rw [ofTable, depth_obj, hzero]

@[simp] theorem ofU64_depth (n : UInt64) : (ofU64 n : Json F).depth = 0 := rfl
@[simp] theorem ofU32_depth (n : UInt32) : (ofU32 n : Json F).depth = 0 := rfl
@[simp] theorem bool_depth (b : Bool) : (bool b : Json F).depth = 0 := rfl
@[simp] theorem ofOption_depth (s : Option String) : (ofOption s : Json F).depth = 0 := by
  cases s <;> rfl

variable [JsonFloat F]

@[simp] theorem ofF64_depth (x : F) : (ofF64 x).depth = 0 := by
  unfold ofF64
  split_ifs <;> rfl

@[simp] theorem refloat_ofU64 (n : UInt64) : (ofU64 n : Json F).refloat = ofU64 n := rfl
@[simp] theorem refloat_ofU32 (n : UInt32) : (ofU32 n : Json F).refloat = ofU32 n := rfl
@[simp] theorem refloat_str (s : String) : (str s : Json F).refloat = str s := rfl
@[simp] theorem refloat_bool (b : Bool) : (bool b : Json F).refloat = bool b := rfl
@[simp] theorem refloat_float (x : F) : (float x).refloat = float (JsonFloat.reparse x) := rfl
@[simp] theorem refloat_arr (l : List (Json F)) : (arr l).refloat = arr (l.map refloat) := by
  rw [refloat, itemsRefloat_eq_map]
@[simp] theorem refloat_obj (l : List (String × Json F)) :
    (obj l).refloat = obj (l.map fun e => (e.1, e.2.refloat)) := by
  rw [refloat, entriesRefloat_eq_map]
@[simp] theorem refloat_ofOption (s : Option String) :
    (ofOption s : Json F).refloat = ofOption s := by
  cases s <;> rfl

@[simp] theorem refloat_ofTable_str (t : OrderedTable String String) :
    (ofTable str t : Json F).refloat = ofTable str t := by
  simp [ofTable, Function.comp_def]

theorem ofF64_of_finite {x : F} (h : JsonFloat.finite x = true) : ofF64 x = float x := by
  simp [ofF64, h]

theorem toTable_refloat_floats {t : OrderedTable String F}
    (h : ∀ x ∈ t.rows.map Prod.snd, JsonFloat.finite x = true) :
    toTable toF64 (ofTable ofF64 t).refloat = some (t.mapValues JsonFloat.reparse) := by
  have hdoc : (ofTable ofF64 t).refloat = ofTable (fun x => float (JsonFloat.reparse x)) t := by
    simp only [ofTable, refloat_obj, List.map_map, obj.injEq]
    refine List.map_congr_left fun r hr => ?_
    simp only [Function.comp_apply, ofF64_of_finite (h r.2 (List.mem_map_of_mem hr)), refloat_float]
  rw [hdoc, toTable_ofTable toF64 _ JsonFloat.reparse fun _ => rfl]

end Json

namespace EventPayload
variable {F : Type} [JsonFloat F]

/-- The floats of a payload. -/
def floats : EventPayload F → List F
  | .commandObserved _ _ _ entropy _ _ _ _ => [entropy]
  | .score _ _ x features => x :: features.rows.map Prod.snd
  | .detection _ _ confidence _ _ features => confidence :: features.rows.map Prod.snd
  | .custom value => value.json.floats
  | _ => []

/-- A `Custom` payload of `null` stands for one of the empty object. -/
def canonical : EventPayload F → EventPayload F
  | .custom ⟨.null, _⟩ => .custom ⟨.obj [], .nil, trivial⟩
  | p => p

/-- A payload with each float as the parser reads it back. -/
def reparse : EventPayload F → EventPayload F
  | .commandObserved sid len tokens entropy backspace dist gap hash =>
      .commandObserved sid len tokens (JsonFloat.reparse entropy) backspace dist gap hash
  | .score subject model x features =>
      .score subject model (JsonFloat.reparse x) (features.mapValues JsonFloat.reparse)
  | .detection subject verdict confidence model reasons features =>
      .detection subject verdict (JsonFloat.reparse confidence) model reasons
        (features.mapValues JsonFloat.reparse)
  | .custom value => .custom (.deserialize value.json.refloat)
  | p => p

/-- A `Custom` object with an entry under the tag's key. -/
def TagClash : EventPayload F → Prop
  | .custom ⟨.obj entries, _⟩ => ∃ e ∈ entries, e.1 = tag
  | _ => False

/-- Nesting of a `Custom` value; no other payload nests. -/
def customDepth : EventPayload F → ℕ
  | .custom value => value.json.depth
  | _ => 0

omit [JsonFloat F] in
theorem not_tagClash_iff {entries : List (String × Json F)} {h : (Json.obj entries).Sorted} :
    ¬(custom ⟨.obj entries, h⟩).TagClash ↔ ∀ e ∈ entries, e.1 ≠ tag := by
  simp only [TagClash, not_exists, not_and, ne_eq]

theorem split_tag {variant : String} {entries : List (String × Json F)}
    (h : ∀ e ∈ entries, e.1 ≠ tag) :
    deserialize (.obj ((tag, .str variant) :: entries)) = ofBody variant entries := by
  have htag : entries.filter (fun e => e.1 = tag) = [] :=
    List.filter_eq_nil_iff.mpr fun e he => by simpa using h e he
  have hrest : entries.filter (fun e => decide (e.1 ≠ tag)) = entries :=
    List.filter_eq_self.mpr fun e he => by simpa using h e he
  simp only [deserialize, Json.field, decide_true, List.filter_cons_of_pos, htag, Json.toStr,
    Option.bind_eq_bind, Option.bind_some]
  rw [List.filter_cons_of_neg (by simp), hrest]

theorem forall_mem_ite {α : Type} {q : α → Prop} {p : Prop} [Decidable p] {x y : Option α}
    (hx : ∀ a ∈ x, q a) (hy : ∀ a ∈ y, q a) : ∀ a ∈ if p then x else y, q a := by
  split_ifs
  · exact hx
  · exact hy

theorem forall_mem_bind {α β : Type} {q : β → Prop} {x : Option α} {f : α → Option β}
    (hf : ∀ a, ∀ b ∈ f a, q b) : ∀ b ∈ x >>= f, q b := by
  intro b hb
  obtain ⟨a, -, hb⟩ := Option.bind_eq_some_iff.mp hb
  exact hf a b hb

theorem body_isSome_of_ofBody (variant : String) (entries : List (String × Json F)) :
    ∀ p ∈ ofBody variant entries, p.body.isSome := by
  have hsome : ∀ p : EventPayload F, p.body.isSome → ∀ p' ∈ some p, p'.body.isSome := by
    intro p hp p' hp'
    cases hp'
    exact hp
  unfold ofBody
  -- One goal a variant, and the last for the names of none.
  repeat' apply forall_mem_ite
  all_goals repeat refine forall_mem_bind fun _ => ?_
  iterate 10 exact hsome _ rfl
  nofun

/-- Reading makes no `Custom` payload but of objects. -/
theorem body_isSome_of_deserialize {j : Json F} {p : EventPayload F}
    (h : deserialize j = some p) : p.body.isSome := by
  cases j with
  | obj entries =>
      obtain ⟨variant, -, hvariant⟩ := Option.bind_eq_some_iff.mp h
      exact body_isSome_of_ofBody variant _ p hvariant
  | _ => cases h

theorem deserialize_clash {variant : Json F} {entries : List (String × Json F)}
    (h : ∃ e ∈ entries, e.1 = tag) :
    deserialize (.obj ((tag, variant) :: entries)) = none := by
  obtain ⟨e, he, hk⟩ := h
  have hmem : e ∈ entries.filter (fun e => e.1 = tag) := List.mem_filter.mpr ⟨he, by simpa using hk⟩
  simp only [deserialize, Json.field, decide_true, List.filter_cons_of_pos]
  cases hl : entries.filter (fun e => decide (e.1 = tag)) with
  | nil => simp [hl] at hmem
  | cons x l => rfl

/-- No variant of the program's own has a field under the tag's key. -/
theorem body_no_tag {p : EventPayload F} {b : String × List (String × Json F)}
    (hb : p.body = some b) (hclash : ¬p.TagClash) : ∀ e ∈ b.2, e.1 ≠ tag := by
  cases p with
  | custom value =>
      obtain ⟨j, hj⟩ := value
      cases j with
      | obj entries =>
          cases hb
          exact not_tagClash_iff.mp hclash
      | null =>
          cases hb
          simp
      | _ => cases hb
  | _ =>
      cases hb
      simp [tag]

/-- An encoded `Custom` object with an entry under the tag's key is unreadable. -/
theorem deserialize_refloat_clash {p : EventPayload F} {j : Json F} (hp : p.serialize = some j)
    (hclash : p.TagClash) : deserialize j.refloat = none := by
  obtain ⟨b, hb, rfl⟩ := Option.map_eq_some_iff.mp hp
  cases p with
  | custom value =>
      obtain ⟨v, hv⟩ := value
      cases v with
      | obj entries =>
          cases hb
          obtain ⟨e, he, hk⟩ := hclash
          rw [Json.refloat_obj, List.map_cons]
          exact deserialize_clash ⟨_, List.mem_map_of_mem he, hk⟩
      | _ => cases hclash
  | _ => cases hclash

/-- A payload reads back as itself with reparsed floats. -/
theorem deserialize_refloat {p : EventPayload F} {j : Json F} (hp : p.serialize = some j)
    (hclash : ¬p.TagClash) (hfin : ∀ x ∈ p.floats, JsonFloat.finite x = true) :
    deserialize j.refloat = some p.canonical.reparse := by
  obtain ⟨b, hb, rfl⟩ := Option.map_eq_some_iff.mp hp
  have hkeys : ∀ e ∈ b.2.map (fun e => (e.1, e.2.refloat)), e.1 ≠ tag := by
    intro e he
    obtain ⟨a, ha, rfl⟩ := List.mem_map.mp he
    exact body_no_tag hb hclash a ha
  rw [Json.refloat_obj, List.map_cons, Json.refloat_str, split_tag hkeys]
  cases p with
  | custom value =>
      obtain ⟨j, hj⟩ := value
      cases j with
      | obj entries =>
          cases hb
          simp [ofBody, canonical, reparse]
      | null =>
          cases hb
          simp [ofBody, canonical, reparse]
      | _ => cases hb
  | commandObserved sid len tokens entropy backspace dist gap hash =>
      cases hb
      have hentropy := Json.ofF64_of_finite (hfin entropy (by simp [floats]))
      simp [ofBody, Json.field, Json.toStr, Json.toBool, hentropy, Json.toF64,
        canonical, reparse]
  | score subject model x features =>
      cases hb
      have hx := Json.ofF64_of_finite (hfin x (by simp [floats]))
      have hfeatures := Json.toTable_refloat_floats (t := features) fun y hy =>
        hfin y (List.mem_cons_of_mem _ hy)
      simp [ofBody, Json.field, Json.fieldOr, Json.toStr, hx, Json.toF64,
        hfeatures, canonical, reparse]
  | detection subject verdict confidence model reasons features =>
      cases hb
      have hconfidence := Json.ofF64_of_finite (hfin confidence (by simp [floats]))
      have hfeatures := Json.toTable_refloat_floats (t := features) fun y hy =>
        hfin y (List.mem_cons_of_mem _ hy)
      have hverdict : Verdict.deserialize (.str verdict.display : Json F) = some verdict := by
        cases verdict <;> rfl
      simp [ofBody, Json.field, Json.fieldOr, Json.toStr, hconfidence, Json.toF64,
        hfeatures, hverdict, canonical, reparse, Function.comp_def]
  | alert severity title detail subject =>
      cases hb
      have hseverity : Severity.deserialize (.str severity.name : Json F) = some severity := by
        cases severity <;> rfl
      simp [ofBody, Json.field, Json.fieldOr, Json.toStr, hseverity, canonical, reparse]
  | _ =>
      cases hb
      simp [ofBody, Json.field, Json.fieldOr, Json.toStr, Json.toBool, canonical, reparse,
        Function.comp_def]

theorem serialize_depth {p : EventPayload F} {j : Json F} (h : p.serialize = some j)
    {n : ℕ} (hn : 2 ≤ n) : 1 ≤ j.depth ∧ (j.depth ≤ n ↔ p.customDepth ≤ n) := by
  cases p with
  | custom value =>
      obtain ⟨v, hv⟩ := value
      cases v with
      | obj entries =>
          cases h
          simp [customDepth, Json.entriesDepth]
      | null =>
          cases h
          simp only [customDepth, Json.depth_obj, Json.depth_null, Json.entriesDepth,
            Json.depth_str]
          omega
      | _ => cases h
  | score subject model x features =>
      cases h
      have hfeatures := Json.ofTable_depth Json.ofF64_depth features
      simp only [customDepth, Json.depth_obj, Json.entriesDepth, Json.depth_str,
        Json.ofF64_depth, hfeatures]
      omega
  | detection subject verdict confidence model reasons features =>
      cases h
      have hfeatures := Json.ofTable_depth Json.ofF64_depth features
      simp only [customDepth, Json.depth_obj, Json.entriesDepth, Json.depth_str,
        Json.depth_arr, Json.itemsDepth_map_str, Json.ofF64_depth, hfeatures]
      omega
  | _ =>
      cases h
      simp only [customDepth, Json.depth_obj, Json.entriesDepth, Json.depth_str, Json.bool_depth,
        Json.ofU32_depth, Json.ofU64_depth, Json.ofOption_depth, Json.depth_arr,
        Json.itemsDepth_map_str, Json.ofF64_depth]
      omega

theorem canonical_reparse_eq_iff (p : EventPayload F) :
    p.canonical.reparse = p.canonical ↔ ∀ x ∈ p.floats, JsonFloat.reparse x = x := by
  cases p with
  | custom value =>
      obtain ⟨v, hv⟩ := value
      cases v with
      | null => simp [canonical, reparse, floats, Json.floats, Json.Value.deserialize,
          Json.collect, Json.entriesCollect, OrderedTable.ofList]
      | _ =>
          simp only [canonical, reparse, floats, custom.injEq, ← Json.refloat_eq_self_iff]
          exact Json.Value.deserialize_refloat_eq_iff ⟨_, hv⟩
  | score subject model x features =>
      simp [canonical, reparse, floats, OrderedTable.mapValues_eq_self_iff]
  | detection subject verdict confidence model reasons features =>
      simp [canonical, reparse, floats, OrderedTable.mapValues_eq_self_iff]
  | _ => simp [canonical, reparse, floats]

end EventPayload

namespace Event
variable {F : Type} [JsonFloat F]

def canonical (e : Event F) : Event F := { e with payload := e.payload.canonical }

def reparse (e : Event F) : Event F := { e with payload := e.payload.reparse }

theorem deserialize_refloat {e : Event F} {j : Json F} (h : e.serialize = some j)
    (hclash : ¬e.payload.TagClash) (hfin : ∀ x ∈ e.payload.floats, JsonFloat.finite x = true) :
    deserialize j.refloat = some e.canonical.reparse := by
  obtain ⟨p, hp, rfl⟩ := Option.map_eq_some_iff.mp h
  have hpayload := EventPayload.deserialize_refloat hp hclash hfin
  simp [deserialize, Json.field, Json.fieldOr, Json.toStr, Json.toUuid_str, hpayload, canonical,
    reparse]

theorem deserialize_clash {e : Event F} {j : Json F} (h : e.serialize = some j)
    (hclash : e.payload.TagClash) : deserialize j.refloat = none := by
  obtain ⟨p, hp, rfl⟩ := Option.map_eq_some_iff.mp h
  have hpayload := EventPayload.deserialize_refloat_clash hp hclash
  simp [deserialize, Json.field, Json.fieldOr, Json.toStr, Json.toUuid_str, hpayload]

theorem serialize_depth {e : Event F} {j : Json F} (h : e.serialize = some j) {n : ℕ}
    (hn : 2 ≤ n) : j.depth ≤ n + 1 ↔ e.payload.customDepth ≤ n := by
  obtain ⟨p, hp, rfl⟩ := Option.map_eq_some_iff.mp h
  obtain ⟨hpos, hdepth⟩ := EventPayload.serialize_depth hp hn
  have hlabels := Json.ofTable_depth (F := F) Json.depth_str e.labels
  simp only [Json.depth_obj, Json.entriesDepth, Json.depth_str, Json.ofU64_depth, hlabels]
  rw [← hdepth]
  omega

/-- What the text of an event must be like to be read back inside a frame. -/
structure Portable (e : Event F) : Prop where
  tag : ¬e.payload.TagClash
  floats : ∀ x ∈ e.payload.floats, JsonFloat.reparse x = x
  depth : e.payload.customDepth ≤ 124

/-- Apart from the nesting limit, an event reads back exactly when its tag is
its only one and its floats survive. -/
theorem deserialize_refloat_iff {e : Event F} {j : Json F} (h : e.serialize = some j)
    (hfin : ∀ x ∈ e.payload.floats, JsonFloat.finite x = true) :
    deserialize j.refloat = some e.canonical ↔
      ¬e.payload.TagClash ∧ ∀ x ∈ e.payload.floats, JsonFloat.reparse x = x := by
  by_cases hclash : e.payload.TagClash
  · simp [deserialize_clash h hclash, hclash]
  · rw [deserialize_refloat h hclash hfin, ← EventPayload.canonical_reparse_eq_iff]
    simp [canonical, reparse, hclash]

end Event

namespace SpillRow
variable {F : Type} [JsonFloat F]

def encode (e : Event F) : Option (Json F) := e.serialize

def decode (row : Json F) : Option (Event F) := row.reread.bind Event.deserialize

/-- The id written into a row. -/
def uid (row : Json F) : Uuid :=
  match row.refloat with
  | .obj entries => (Json.field "id" Json.toUuid entries).getD .nil
  | _ => .nil

theorem encode_uid (e : Event F) (r : Json F) (h : encode e = some r) : uid r = e.id := by
  obtain ⟨p, hp, rfl⟩ := Option.map_eq_some_iff.mp h
  simp [uid, Json.field, Json.toUuid_str]

theorem decode_uid (r : Json F) (e : Event F) (h : decode r = some e) : e.id = uid r := by
  obtain ⟨j, hj, he⟩ := Option.bind_eq_some_iff.mp h
  obtain ⟨-, rfl⟩ : r.depth ≤ Json.depthLimit ∧ r.refloat = j := by
    unfold Json.reread at hj
    split_ifs at hj with hd
    exact ⟨hd, Option.some.inj hj⟩
  unfold uid
  cases hr : r.refloat with
  | obj entries =>
      simp only [hr, Event.deserialize, Option.bind_eq_bind, Option.bind_eq_some_iff,
        Option.some.injEq] at he
      obtain ⟨id, hid, _, _, _, _, _, _, _, _, _, _, _, _, rfl⟩ := he
      simp [hid]
  | _ => simp [hr, Event.deserialize] at he

/-- A `Custom` payload that was read is an object, so whatever was read encodes. -/
theorem decode_encodes (r : Json F) (e : Event F) (h : decode r = some e) :
    (encode e).isSome := by
  obtain ⟨j, -, he⟩ := Option.bind_eq_some_iff.mp h
  have hpayload : ∃ j', EventPayload.deserialize j' = some e.payload := by
    cases j with
    | obj entries =>
        simp only [Event.deserialize, Option.bind_eq_bind, Option.bind_eq_some_iff,
          Option.some.injEq] at he
        obtain ⟨_, _, _, _, _, _, _, _, _, _, p, hp, _, _, rfl⟩ := he
        exact Json.field_isSome hp
    | _ => cases he
  obtain ⟨j', hj'⟩ := hpayload
  have hbody := EventPayload.body_isSome_of_deserialize hj'
  simpa [encode, Event.serialize, EventPayload.serialize] using hbody

theorem decode_encode_iff {e : Event F} {r : Json F} (h : encode e = some r)
    (hfin : ∀ x ∈ e.payload.floats, JsonFloat.finite x = true) :
    decode r = some e.canonical ↔ ¬e.payload.TagClash ∧
      (∀ x ∈ e.payload.floats, JsonFloat.reparse x = x) ∧ e.payload.customDepth ≤ 126 := by
  have hdepth := Event.serialize_depth h (n := 126) (by omega)
  unfold decode Json.reread
  split_ifs with hlim
  · rw [Option.bind_some, Event.deserialize_refloat_iff h hfin]
    simp [hdepth.mp hlim]
  · have : ¬e.payload.customDepth ≤ 126 := fun hle => hlim (hdepth.mpr hle)
    simp [this]

end SpillRow

/-- The forwarder's view of the event serializer. -/
def eventCodec (F : Type) [JsonFloat F] : Codec (Event F) (Json F) Uuid where
  encode := SpillRow.encode
  decode := SpillRow.decode
  len := Json.textLen
  frame batchId events := (Message.eventBatch batchId events).serialize
  uid := Event.id
  rowUid := SpillRow.uid
  encode_uid := SpillRow.encode_uid
  decode_uid := SpillRow.decode_uid
  decode_encodes := SpillRow.decode_encodes
  frame_isSome _ _ h := by
    rw [Message.serialize, Option.isSome_map]
    exact Json.mapM_isSome h

namespace Message
variable {F : Type} [JsonFloat F]

theorem mapM_reads {events : List (Event F)} {docs : List (Json F)}
    (h : events.mapM Event.serialize = some docs) :
    (docs.map Json.refloat).mapM Event.deserialize = some (events.map Event.canonical) ↔
      ∀ e ∈ events, ∀ j, e.serialize = some j →
        Event.deserialize j.refloat = some e.canonical := by
  induction events generalizing docs with
  | nil =>
      cases h
      simp
  | cons e es ih =>
      simp only [List.mapM_cons, Option.bind_eq_bind, Option.bind_eq_some_iff, Option.pure_def,
        Option.some.injEq] at h
      obtain ⟨j, hj, js, hjs, rfl⟩ := h
      have htail := ih hjs
      simp only [List.map_cons, List.mapM_cons, Option.bind_eq_bind, Option.bind_eq_some_iff,
        Option.pure_def, Option.some.injEq, List.cons.injEq, List.forall_mem_cons, hj,
        forall_eq']
      rw [← htail]
      constructor
      · rintro ⟨e', he', es', hes', rfl, rfl⟩
        exact ⟨he', hes'⟩
      · rintro ⟨he, hes⟩
        exact ⟨_, he, _, hes, rfl, rfl⟩

theorem serialize_of_mapM {events : List (Event F)} {docs : List (Json F)}
    (h : events.mapM Event.serialize = some docs) : ∀ e ∈ events, ∃ j, e.serialize = some j := by
  induction events generalizing docs with
  | nil => simp
  | cons e es ih =>
      simp only [List.mapM_cons, Option.bind_eq_bind, Option.bind_eq_some_iff, Option.pure_def,
        Option.some.injEq] at h
      obtain ⟨j, hj, js, hjs, rfl⟩ := h
      exact List.forall_mem_cons.mpr ⟨⟨j, hj⟩, ih hjs⟩

theorem mapM_depth {events : List (Event F)} {docs : List (Json F)}
    (h : events.mapM Event.serialize = some docs) {n : ℕ} (hn : 2 ≤ n) :
    Json.itemsDepth docs ≤ n + 1 ↔ ∀ e ∈ events, e.payload.customDepth ≤ n := by
  induction events generalizing docs with
  | nil =>
      cases h
      simp [Json.itemsDepth]
  | cons e es ih =>
      simp only [List.mapM_cons, Option.bind_eq_bind, Option.bind_eq_some_iff, Option.pure_def,
        Option.some.injEq] at h
      obtain ⟨j, hj, js, hjs, rfl⟩ := h
      simp only [Json.itemsDepth, sup_le_iff, List.forall_mem_cons, ih hjs,
        Event.serialize_depth hj hn]

/-- A batch's frame reads back exactly when every event of it does. -/
theorem read_write_iff {batchId : Uuid} {events : List (Event F)} {f : Frame F}
    (h : (eventBatch batchId events).write = some f)
    (hfin : ∀ e ∈ events, ∀ x ∈ e.payload.floats, JsonFloat.finite x = true) :
    read f = some (.eventBatch batchId (events.map Event.canonical)) ↔
      ∀ e ∈ events, e.Portable := by
  simp only [write, serialize, Option.bind_eq_bind, Option.bind_eq_some_iff,
    Option.map_eq_some_iff] at h
  obtain ⟨doc, ⟨docs, hdocs, rfl⟩, hf⟩ := h
  split_ifs at hf with hlen
  obtain rfl := Option.some.inj hf
  have hreads := mapM_reads hdocs
  have hdepth := mapM_depth hdocs (n := 124) (by omega)
  have hparts : (∀ e ∈ events, e.Portable) ↔
      (∀ e ∈ events, e.payload.customDepth ≤ 124) ∧
      ∀ e ∈ events, ∀ j, e.serialize = some j → Event.deserialize j.refloat = some e.canonical := by
    constructor
    · intro hp
      exact ⟨fun e he => (hp e he).depth, fun e he j hj =>
        (Event.deserialize_refloat_iff hj (hfin e he)).mpr ⟨(hp e he).tag, (hp e he).floats⟩⟩
    · rintro ⟨hd, hr⟩ e he
      obtain ⟨j, hj⟩ := serialize_of_mapM hdocs e he
      have hback := (Event.deserialize_refloat_iff hj (hfin e he)).mp (hr e he j hj)
      exact ⟨hback.1, hback.2, hd e he⟩
  rw [hparts, ← hdepth, ← hreads]
  have hdoc : (Json.obj [("msg", Json.str "event_batch"), ("batch_id", .str batchId.text),
      ("events", .arr docs)]).depth ≤ Json.depthLimit ↔ Json.itemsDepth docs ≤ 124 + 1 := by
    simp only [Json.depth_obj, Json.entriesDepth, Json.depth_str, Json.depth_arr, Json.depthLimit]
    omega
  simp only [read, if_pos hlen, Json.reread, hdoc]
  split_ifs with hd
  · simp only [Option.bind_some, hd, true_and]
    simp [deserialize, Json.field, Json.toStr, Json.toUuid_str, Json.toList,
      Option.bind_eq_some_iff]
  · simp [hd]

end Message
/-- A row reads back exactly when its event has one tag, floats that survive
and at most 126 levels of `Custom` nesting; a frame leaves room for 124. -/
theorem event_round_trip_iff {F : Type} [JsonFloat F] :
    (∀ e : Event F, (SpillRow.encode e).isSome →
      (∀ x ∈ e.payload.floats, JsonFloat.finite x = true) →
      ((SpillRow.encode e).bind SpillRow.decode = some e.canonical ↔
        ¬e.payload.TagClash ∧ (∀ x ∈ e.payload.floats, JsonFloat.reparse x = x) ∧
          e.payload.customDepth ≤ 126)) ∧
    ∀ (batchId : Uuid) (events : List (Event F)) (f : Frame F),
      (Message.eventBatch batchId events).write = some f →
      (∀ e ∈ events, ∀ x ∈ e.payload.floats, JsonFloat.finite x = true) →
      (Message.read f = some (.eventBatch batchId (events.map Event.canonical)) ↔
        ∀ e ∈ events, ¬e.payload.TagClash ∧
          (∀ x ∈ e.payload.floats, JsonFloat.reparse x = x) ∧ e.payload.customDepth ≤ 124) := by
  refine ⟨?_, ?_⟩
  · intro e he hfin
    obtain ⟨r, hr⟩ := Option.isSome_iff_exists.mp he
    rw [hr, Option.bind_some]
    exact SpillRow.decode_encode_iff hr hfin
  · intro batchId events f hf hfin
    rw [Message.read_write_iff hf hfin]
    exact forall₂_congr fun e _ =>
      ⟨fun h => ⟨h.tag, h.floats, h.depth⟩, fun h => ⟨h.1, h.2.1, h.2.2⟩⟩

/-- What `dispatch_command` emits for a `Rescore` command. -/
def rescoreRequest (F : Type) (id : Uuid) (now : UInt64) (agentId subject : String) : Event F :=
  (Event.new id now agentId "plugin-transport" (.custom
    ⟨.obj [("subject", .str subject), ("type", .str "rescore_request")],
      List.pairwise_pair.mpr (show "subject" < "type" by decide),
      trivial, trivial, trivial⟩)).withKind "transport.rescore"

/-- The agent's own rescore request encodes and does not read back, neither as
a row nor in a frame. -/
theorem rescore_request_unreadable :
    ¬((∀ e : Event ℚ, (SpillRow.encode e).isSome →
        (∀ x ∈ e.payload.floats, JsonFloat.finite x = true) →
        (SpillRow.encode e).bind SpillRow.decode = some e.canonical) ∧
      ∀ (batchId : Uuid) (events : List (Event ℚ)) (f : Frame ℚ),
        (Message.eventBatch batchId events).write = some f →
        (∀ e ∈ events, ∀ x ∈ e.payload.floats, JsonFloat.finite x = true) →
        Message.read f = some (.eventBatch batchId (events.map Event.canonical))) := by
  intro h
  have hrow := h.1 (rescoreRequest ℚ .nil 0 "agent-1" "session-1") (by decide)
    (fun x hx => by cases hx)
  have hnone : (SpillRow.encode (rescoreRequest ℚ .nil 0 "agent-1" "session-1")).bind
      SpillRow.decode = none := by rfl
  rw [hnone] at hrow
  cases hrow

end Aegis

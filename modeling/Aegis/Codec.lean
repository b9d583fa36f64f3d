import Mathlib.Data.List.Basic

/-!
# What the forwarder needs of an event encoding

Events are written to the spill and to the wire by one serializer. The
forwarder looks at three things: whether a value serializes, how many bytes
that takes, and whether a stored row parses back. An event keeps its identity
through both directions, which is part of the structure.
-/

namespace Aegis

/-- `encode` and `decode` of one spilled event, and the serialized
`EventBatch` message of a list of events. -/
structure Codec (ε ρ ι : Type) where
  encode : ε → Option ρ
  decode : ρ → Option ε
  len : ρ → ℕ
  frame : ι → List ε → Option ρ
  uid : ε → ι
  rowUid : ρ → ι
  encode_uid : ∀ e r, encode e = some r → rowUid r = uid e
  decode_uid : ∀ r e, decode r = some e → uid e = rowUid r
  decode_encodes : ∀ r e, decode r = some e → (encode e).isSome
  frame_isSome : ∀ id events, (∀ e ∈ events, (encode e).isSome) → (frame id events).isSome

namespace Codec
variable {ε ρ ι : Type} (c : Codec ε ρ ι)

/-- The on-wire size of an event, 256 where it does not serialize. -/
def estimateSize (e : ε) : ℕ := ((c.encode e).map c.len).getD 256

/-- All events of a push in encoded form; nothing where one does not serialize. -/
def encodeAll (events : List ε) : Option (List ρ) := events.mapM c.encode

theorem encodeAll_uid {events : List ε} {rows : List ρ} (h : c.encodeAll events = some rows) :
    rows.map c.rowUid = events.map c.uid := by
  induction events generalizing rows with
  | nil =>
      simp only [encodeAll, List.mapM_nil, Option.pure_def, Option.some.injEq] at h
      subst h
      rfl
  | cons e es ih =>
      simp only [encodeAll, List.mapM_cons, Option.bind_eq_bind, Option.bind_eq_some_iff,
        Option.pure_def, Option.some.injEq] at h
      obtain ⟨r, hr, rs, hrs, rfl⟩ := h
      simp only [List.map_cons, c.encode_uid e r hr, ih hrs]

theorem encodeAll_isSome {events : List ε} (h : ∀ e ∈ events, (c.encode e).isSome) :
    ∃ rows, c.encodeAll events = some rows := by
  induction events with
  | nil => exact ⟨[], rfl⟩
  | cons e es ih =>
      obtain ⟨r, hr⟩ := Option.isSome_iff_exists.mp (h e List.mem_cons_self)
      obtain ⟨rs, hrs⟩ := ih fun x hx => h x (List.mem_cons_of_mem _ hx)
      exact ⟨r :: rs, by
        simp only [encodeAll] at hrs
        simp [encodeAll, List.mapM_cons, hr, hrs]⟩

theorem isSome_of_encodeAll {events : List ε} {rows : List ρ} (h : c.encodeAll events = some rows) :
    ∀ e ∈ events, (c.encode e).isSome := by
  induction events generalizing rows with
  | nil => simp
  | cons e es ih =>
      simp only [encodeAll, List.mapM_cons, Option.bind_eq_bind, Option.bind_eq_some_iff,
        Option.pure_def, Option.some.injEq] at h
      obtain ⟨r, hr, rs, hrs, rfl⟩ := h
      exact List.forall_mem_cons.mpr ⟨by rw [hr]; rfl, ih hrs⟩

theorem encodeAll_none_of_mem {events : List ε} {e : ε} (he : e ∈ events)
    (h : c.encode e = none) : c.encodeAll events = none := by
  cases hall : c.encodeAll events with
  | none => rfl
  | some rows =>
      have hsome := c.isSome_of_encodeAll hall e he
      rw [h] at hsome
      cases hsome

end Codec
end Aegis

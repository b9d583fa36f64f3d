import Aegis.Ingest

/-!
# Sanitised event fields

What `sanitize_ingest_fields` leaves of an event off the wire. Truncation backs
off to a character boundary, so what is kept is always a prefix of whole
characters; truncated label keys may coincide, which can only lower the count.
-/

namespace Aegis
variable {F : Type}

/-- The bytes of characters in UTF-8. -/
def utf8Length (cs : List Char) : ℕ := (cs.map Char.utf8Size).sum

@[simp] theorem utf8Length_cons (ch : Char) (cs : List Char) :
    utf8Length (ch :: cs) = ch.utf8Size + utf8Length cs := by
  simp [utf8Length]

@[simp] theorem utf8Length_append (cs ds : List Char) :
    utf8Length (cs ++ ds) = utf8Length cs + utf8Length ds := by
  simp [utf8Length]

theorem utf8ByteSize_ofList (cs : List Char) : (String.ofList cs).utf8ByteSize = utf8Length cs := by
  induction cs with
  | nil => rfl
  | cons ch cs ih =>
      have hcons : String.ofList (ch :: cs) = String.singleton ch ++ String.ofList cs := by
        rw [← String.toList_inj]
        simp
      rw [hcons, String.utf8ByteSize_append, String.utf8ByteSize_singleton, ih, utf8Length_cons]

theorem utf8Length_le_of_prefix {cs ds : List Char} (h : cs <+: ds) :
    utf8Length cs ≤ utf8Length ds := by
  obtain ⟨rest, rfl⟩ := h
  rw [utf8Length_append]
  exact Nat.le_add_right _ _

theorem takeBytes_prefix (max : ℕ) (cs : List Char) : takeBytes max cs <+: cs := by
  induction cs generalizing max with
  | nil => exact List.prefix_rfl
  | cons ch rest ih =>
      rw [takeBytes]
      split
      · exact List.cons_prefix_cons.mpr ⟨rfl, ih _⟩
      · exact List.nil_prefix

theorem utf8Length_takeBytes_le (max : ℕ) (cs : List Char) :
    utf8Length (takeBytes max cs) ≤ max := by
  induction cs generalizing max with
  | nil => exact Nat.zero_le max
  | cons ch rest ih =>
      rw [takeBytes]
      split
      · rename_i hfits
        have hrest := ih (max - ch.utf8Size)
        rw [utf8Length_cons]
        omega
      · exact Nat.zero_le max

theorem prefix_takeBytes {max : ℕ} {p cs : List Char} (hp : p <+: cs) (hfits : utf8Length p ≤ max) :
    p <+: takeBytes max cs := by
  induction cs generalizing max p with
  | nil => exact hp
  | cons ch rest ih =>
      cases p with
      | nil => exact List.nil_prefix
      | cons c p =>
          have hcons := List.cons_prefix_cons.mp hp
          rw [utf8Length_cons, hcons.1] at hfits
          have hsize : ch.utf8Size ≤ max := by omega
          rw [takeBytes, if_pos hsize, hcons.1]
          exact List.cons_prefix_cons.mpr ⟨rfl, ih hcons.2 (by omega)⟩

/-- `str::is_char_boundary`. -/
def isCharBoundary : List Char → ℕ → Bool
  | _, 0 => true
  | [], _ + 1 => false
  | ch :: rest, n + 1 => ch.utf8Size ≤ n + 1 && isCharBoundary rest (n + 1 - ch.utf8Size)

/-- The loop of `truncate_to`, which backs off from the limit to a boundary. -/
def boundaryFrom (cs : List Char) : ℕ → ℕ
  | 0 => 0
  | e + 1 => if isCharBoundary cs (e + 1) then e + 1 else boundaryFrom cs e

theorem isCharBoundary_iff {cs : List Char} {n : ℕ} :
    isCharBoundary cs n ↔ ∃ p, p <+: cs ∧ utf8Length p = n := by
  induction cs generalizing n with
  | nil =>
      cases n with
      | zero => simp [isCharBoundary, utf8Length]
      | succ n => simp [isCharBoundary, utf8Length]
  | cons ch rest ih =>
      cases n with
      | zero =>
          simp only [isCharBoundary, true_iff]
          exact ⟨[], List.nil_prefix, rfl⟩
      | succ n =>
          simp only [isCharBoundary, Bool.and_eq_true, decide_eq_true_eq, ih]
          constructor
          · rintro ⟨hsize, p, hp, hlen⟩
            exact ⟨ch :: p, List.cons_prefix_cons.mpr ⟨rfl, hp⟩, by rw [utf8Length_cons]; omega⟩
          · rintro ⟨p, hp, hlen⟩
            cases p with
            | nil => cases hlen
            | cons c p =>
                have hcons := List.cons_prefix_cons.mp hp
                rw [utf8Length_cons, hcons.1] at hlen
                exact ⟨by omega, p, hcons.2, by omega⟩

theorem boundaryFrom_eq {cs : List Char} {max n : ℕ} (hn : isCharBoundary cs n) (hle : n ≤ max)
    (hgreatest : ∀ m, isCharBoundary cs m → m ≤ max → m ≤ n) : boundaryFrom cs max = n := by
  induction max with
  | zero => rw [boundaryFrom, Nat.le_zero.mp hle]
  | succ e ih =>
      rw [boundaryFrom]
      split
      · rename_i hboundary
        exact Nat.le_antisymm (hgreatest _ hboundary le_rfl) hle
      · rename_i hboundary
        have hne : n ≠ e + 1 := fun h => hboundary (h ▸ hn)
        exact ih (by omega) fun m hm hme => hgreatest m hm (by omega)

/-- What is taken ends at the boundary where the loop stops. -/
theorem utf8Length_takeBytes (max : ℕ) (cs : List Char) :
    utf8Length (takeBytes max cs) = boundaryFrom cs max := by
  refine (boundaryFrom_eq ?_ (utf8Length_takeBytes_le max cs) ?_).symm
  · exact isCharBoundary_iff.mpr ⟨_, takeBytes_prefix max cs, rfl⟩
  · intro m hm hmax
    obtain ⟨p, hp, rfl⟩ := isCharBoundary_iff.mp hm
    exact utf8Length_le_of_prefix (prefix_takeBytes hp hmax)

theorem truncateTo_prefix (s : String) (max : ℕ) : (truncateTo s max).toList <+: s.toList := by
  rw [truncateTo]
  split
  · exact List.prefix_rfl
  · rw [String.toList_ofList]
    exact takeBytes_prefix max s.toList

theorem utf8ByteSize_truncateTo_le (s : String) (max : ℕ) :
    (truncateTo s max).utf8ByteSize ≤ max := by
  rw [truncateTo]
  split
  · assumption
  · rw [utf8ByteSize_ofList]
    exact utf8Length_takeBytes_le max s.toList

theorem utf8ByteSize_truncateTo {s : String} {max : ℕ} (h : max < s.utf8ByteSize) :
    (truncateTo s max).utf8ByteSize = boundaryFrom s.toList max := by
  rw [truncateTo, if_neg (by omega), utf8ByteSize_ofList, utf8Length_takeBytes]

theorem truncateTo_of_le {s : String} {max : ℕ} (h : s.utf8ByteSize ≤ max) :
    truncateTo s max = s := if_pos h

example : truncateTo "ééé" 5 = "éé" := by decide +kernel

/-- The earliest and the latest time accepted at a server time. -/
def acceptedWindow (now : UInt64) : ℕ × ℕ :=
  (now.toNat - maxTsSkewNs, min (now.toNat + maxTsSkewNs) (UInt64.size - 1))

/-- Labels that need no trimming. -/
structure LabelsConform (labels : OrderedTable String String) : Prop where
  count : labels.rows.length ≤ maxLabels
  keys : ∀ r ∈ labels.rows, r.1.utf8ByteSize ≤ maxLabelKvLen
  values : ∀ r ∈ labels.rows, r.2.utf8ByteSize ≤ maxLabelKvLen

structure Conforms (now : UInt64) (event : Event F) : Prop where
  early : (acceptedWindow now).1 ≤ event.tsNs.toNat
  late : event.tsNs.toNat ≤ (acceptedWindow now).2
  source : event.source.utf8ByteSize ≤ maxSourceLen
  labels : LabelsConform event.labels

theorem clampTs_window (now ts : UInt64) :
    (acceptedWindow now).1 ≤ (clampTs now ts).toNat ∧
      (clampTs now ts).toNat ≤ (acceptedWindow now).2 := by
  have hnow : now.toNat < UInt64.size := now.toNat_lt
  simp only [clampTs, acceptedWindow]
  split <;> omega

theorem clampTs_of_window {now ts : UInt64} (hearly : (acceptedWindow now).1 ≤ ts.toNat)
    (hlate : ts.toNat ≤ (acceptedWindow now).2) : clampTs now ts = ts := by
  simp only [acceptedWindow] at hearly hlate
  simp only [clampTs]
  rw [if_neg (by omega)]

theorem sanitizeLabels_of_conform {labels : OrderedTable String String} (h : LabelsConform labels) :
    sanitizeLabels labels = labels := by
  refine if_neg ?_
  rintro (hcount | ⟨r, hr, hkey | hvalue⟩)
  · exact absurd h.count (by omega)
  · exact absurd (h.keys r hr) (by omega)
  · exact absurd (h.values r hr) (by omega)

/-- What trimming keeps comes from one of the first labels, both parts truncated. -/
theorem mem_sanitizeLabels {labels : OrderedTable String String} {r : String × String}
    (h : r ∈ (sanitizeLabels labels).rows) :
    ∃ r₀ ∈ labels.rows,
      r = (truncateTo r₀.1 maxLabelKvLen, truncateTo r₀.2 maxLabelKvLen) := by
  rw [sanitizeLabels] at h
  split at h
  · obtain ⟨r₀, hr₀, rfl⟩ := List.mem_map.mp (OrderedTable.mem_ofList h)
    exact ⟨r₀, List.mem_of_mem_take hr₀, rfl⟩
  · rename_i hfits
    push Not at hfits
    have hsizes := hfits.2 r h
    exact ⟨r, h, by rw [truncateTo_of_le hsizes.1, truncateTo_of_le hsizes.2]⟩

theorem length_sanitizeLabels_le (labels : OrderedTable String String) :
    (sanitizeLabels labels).rows.length ≤ maxLabels := by
  rw [sanitizeLabels]
  split
  · refine (OrderedTable.length_ofList_le _).trans ?_
    rw [List.length_map, List.length_take]
    exact Nat.min_le_left _ _
  · rename_i hfits
    push Not at hfits
    exact hfits.1

theorem sanitizeLabels_conform (labels : OrderedTable String String) :
    LabelsConform (sanitizeLabels labels) where
  count := length_sanitizeLabels_le labels
  keys := by
    intro r hr
    obtain ⟨r₀, _, rfl⟩ := mem_sanitizeLabels hr
    exact utf8ByteSize_truncateTo_le r₀.1 maxLabelKvLen
  values := by
    intro r hr
    obtain ⟨r₀, _, rfl⟩ := mem_sanitizeLabels hr
    exact utf8ByteSize_truncateTo_le r₀.2 maxLabelKvLen

@[simp] theorem sanitizeIngestFields_tsNs (now : UInt64) (event : Event F) :
    (sanitizeIngestFields now event).tsNs = clampTs now event.tsNs := by
  rw [sanitizeIngestFields]

@[simp] theorem sanitizeIngestFields_source (now : UInt64) (event : Event F) :
    (sanitizeIngestFields now event).source = truncateTo event.source maxSourceLen := by
  cases event
  rfl

@[simp] theorem sanitizeIngestFields_labels (now : UInt64) (event : Event F) :
    (sanitizeIngestFields now event).labels = sanitizeLabels event.labels := by
  cases event
  rfl

theorem sanitizeIngestFields_conforms (now : UInt64) (event : Event F) :
    Conforms now (sanitizeIngestFields now event) where
  early := by
    rw [sanitizeIngestFields_tsNs]
    exact (clampTs_window now event.tsNs).1
  late := by
    rw [sanitizeIngestFields_tsNs]
    exact (clampTs_window now event.tsNs).2
  source := by
    rw [sanitizeIngestFields_source]
    exact utf8ByteSize_truncateTo_le event.source maxSourceLen
  labels := by
    rw [sanitizeIngestFields_labels]
    exact sanitizeLabels_conform event.labels

theorem sanitizeIngestFields_of_conforms {now : UInt64} {event : Event F}
    (h : Conforms now event) : sanitizeIngestFields now event = event := by
  have hts := clampTs_of_window h.early h.late
  have hsource := truncateTo_of_le h.source
  have hlabels := sanitizeLabels_of_conform h.labels
  rw [sanitizeIngestFields, hts, hsource, hlabels]

/-- Everything but the three fields. -/
def SameRest (a b : Event F) : Prop :=
  a.id = b.id ∧ a.agentId = b.agentId ∧ a.kind = b.kind ∧ a.payload = b.payload

theorem sanitizeIngestFields_sameRest (now : UInt64) (event : Event F) :
    SameRest (sanitizeIngestFields now event) event := by
  cases event
  exact ⟨rfl, rfl, rfl, rfl⟩

/-- Sanitising makes an event conform by keeping a prefix of its source and prefixes of
some labels, touches no other field, leaves an event alone that conforms already, and
does nothing when repeated at the same time. -/
theorem sanitizeIngestFields_correct (now : UInt64) (event : Event F) :
    Conforms now (sanitizeIngestFields now event) ∧
      (sanitizeIngestFields now event).source.toList <+: event.source.toList ∧
      (∀ r ∈ (sanitizeIngestFields now event).labels.rows, ∃ r₀ ∈ event.labels.rows,
        r.1.toList <+: r₀.1.toList ∧ r.2.toList <+: r₀.2.toList) ∧
      (Conforms now event → sanitizeIngestFields now event = event) ∧
      SameRest (sanitizeIngestFields now event) event ∧
      sanitizeIngestFields now (sanitizeIngestFields now event) =
        sanitizeIngestFields now event := by
  have hconforms := sanitizeIngestFields_conforms now event
  refine ⟨hconforms, ?_, ?_, sanitizeIngestFields_of_conforms,
    sanitizeIngestFields_sameRest now event, sanitizeIngestFields_of_conforms hconforms⟩
  · rw [sanitizeIngestFields_source]
    exact truncateTo_prefix event.source maxSourceLen
  intro r hr
  rw [sanitizeIngestFields_labels] at hr
  obtain ⟨r₀, hr₀, rfl⟩ := mem_sanitizeLabels hr
  exact ⟨r₀, hr₀, truncateTo_prefix r₀.1 maxLabelKvLen, truncateTo_prefix r₀.2 maxLabelKvLen⟩

end Aegis

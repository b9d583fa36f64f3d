import Aegis.OrderedTable
import Mathlib.Data.String.Basic
import Mathlib.Data.Rat.Defs

/-!
# JSON documents

A document as `serde_json` writes and parses it: a tree whose objects are
entry lists, so that a text with a repeated key is a document too. Printing
followed by parsing is `reread`: it changes nothing but floats, which the
parser does not promise to read back exactly, and it fails past the parser's
nesting limit.
-/

namespace Aegis

/-- What the printer and the parser do with a binary float. -/
class JsonFloat (F : Type) where
  finite : F → Bool
  reparse : F → F
  ofInt : ℤ → F
  textLen : F → ℕ

/-- Floats without rounding, for evaluation. -/
instance : JsonFloat ℚ where
  finite _ := true
  reparse := id
  ofInt := Int.cast
  textLen x := (toString x.num).length + (toString x.den).length + 1

/-- The integers a `serde_json` number holds without becoming a float. -/
abbrev JsonInt : Type := { z : ℤ // -2 ^ 63 ≤ z ∧ z < 2 ^ 64 }

inductive Json (F : Type) where
  | null
  | bool (b : Bool)
  | int (n : JsonInt)
  | float (x : F)
  | str (s : String)
  | arr (items : List (Json F))
  | obj (entries : List (String × Json F))

namespace Json
variable {F : Type}

/-- `serde_json` starts with 128 levels and refuses to enter the last one. -/
def depthLimit : ℕ := 127

/-- Bytes of one character inside a JSON string. -/
def charLen (ch : Char) : ℕ :=
  if ch = '\x22' ∨ ch = '\\' then 2
  else if ch = '\n' ∨ ch = '\r' ∨ ch = '\t' ∨ ch = '\x08' ∨ ch = '\x0c' then 2
  else if ch.val < 0x20 then 6
  else ch.utf8Size

def strLen (s : String) : ℕ := (s.toList.map charLen).sum + 2

mutual
/-- Length in bytes of the compact text. -/
def textLen [JsonFloat F] : Json F → ℕ
  | .null => 4
  | .bool b => if b then 4 else 5
  | .int n => (toString n.1).length
  | .float x => JsonFloat.textLen x
  | .str s => strLen s
  | .arr items => itemsLen items + 2
  | .obj entries => entriesLen entries + 2
termination_by structural j => j
def itemsLen [JsonFloat F] : List (Json F) → ℕ
  | [] => 0
  | j :: js => textLen j + (if js.isEmpty then 0 else 1) + itemsLen js
termination_by structural l => l
def entriesLen [JsonFloat F] : List (String × Json F) → ℕ
  | [] => 0
  | (k, j) :: es => strLen k + 1 + textLen j + (if es.isEmpty then 0 else 1) + entriesLen es
termination_by structural l => l
end

mutual
/-- Nesting of arrays and objects. -/
def depth : Json F → ℕ
  | .arr items => itemsDepth items + 1
  | .obj entries => entriesDepth entries + 1
  | _ => 0
termination_by structural j => j
def itemsDepth : List (Json F) → ℕ
  | [] => 0
  | j :: js => max (depth j) (itemsDepth js)
termination_by structural l => l
def entriesDepth : List (String × Json F) → ℕ
  | [] => 0
  | (_, j) :: es => max (depth j) (entriesDepth es)
termination_by structural l => l
end

@[simp] theorem depth_arr (l : List (Json F)) : (arr l).depth = itemsDepth l + 1 := rfl
@[simp] theorem depth_obj (l : List (String × Json F)) :
    (obj l).depth = entriesDepth l + 1 := rfl
@[simp] theorem depth_str (s : String) : (str s : Json F).depth = 0 := rfl
@[simp] theorem depth_null : (null : Json F).depth = 0 := rfl

theorem itemsDepth_map_str (l : List String) : itemsDepth (l.map (str (F := F))) = 0 := by
  induction l with
  | nil => rfl
  | cons s l ih => simp [itemsDepth, ih]

theorem entriesDepth_le_iff (l : List (String × Json F)) (n : ℕ) :
    entriesDepth l ≤ n ↔ ∀ e ∈ l, e.2.depth ≤ n := by
  induction l with
  | nil => simp [entriesDepth]
  | cons e l ih =>
      obtain ⟨k, j⟩ := e
      simp [entriesDepth, ih]

mutual
/-- The floats of a document. -/
def floats : Json F → List F
  | .float x => [x]
  | .arr items => itemsFloats items
  | .obj entries => entriesFloats entries
  | _ => []
termination_by structural j => j
def itemsFloats : List (Json F) → List F
  | [] => []
  | j :: js => floats j ++ itemsFloats js
termination_by structural l => l
def entriesFloats : List (String × Json F) → List F
  | [] => []
  | (_, j) :: es => floats j ++ entriesFloats es
termination_by structural l => l
end

mutual
/-- Every float as the parser reads it back. -/
def refloat [JsonFloat F] : Json F → Json F
  | .float x => .float (JsonFloat.reparse x)
  | .arr items => .arr (itemsRefloat items)
  | .obj entries => .obj (entriesRefloat entries)
  | .null => .null
  | .bool b => .bool b
  | .int n => .int n
  | .str s => .str s
termination_by structural j => j
def itemsRefloat [JsonFloat F] : List (Json F) → List (Json F)
  | [] => []
  | j :: js => refloat j :: itemsRefloat js
termination_by structural l => l
def entriesRefloat [JsonFloat F] : List (String × Json F) → List (String × Json F)
  | [] => []
  | (k, j) :: es => (k, refloat j) :: entriesRefloat es
termination_by structural l => l
end

/-- The document parsed from the text of a document. -/
def reread [JsonFloat F] (j : Json F) : Option (Json F) :=
  if j.depth ≤ depthLimit then some j.refloat else none

theorem itemsRefloat_eq_map [JsonFloat F] (l : List (Json F)) :
    itemsRefloat l = l.map refloat := by
  induction l with
  | nil => rfl
  | cons j l ih => simp [itemsRefloat, ih]

theorem entriesRefloat_eq_map [JsonFloat F] (l : List (String × Json F)) :
    entriesRefloat l = l.map fun e => (e.1, e.2.refloat) := by
  induction l with
  | nil => rfl
  | cons e l ih =>
      obtain ⟨k, j⟩ := e
      simp [entriesRefloat, ih]

mutual
/-- A document is unchanged by parsing exactly when each of its floats is. -/
theorem refloat_eq_self_iff [JsonFloat F] :
    ∀ j : Json F, j.refloat = j ↔ ∀ x ∈ j.floats, JsonFloat.reparse x = x
  | .null | .bool _ | .int _ | .str _ => by simp [refloat, floats]
  | .float x => by simp [refloat, floats]
  | .arr items => by simpa [refloat, floats] using itemsRefloat_eq_self_iff items
  | .obj entries => by simpa [refloat, floats] using entriesRefloat_eq_self_iff entries
termination_by structural j => j
theorem itemsRefloat_eq_self_iff [JsonFloat F] :
    ∀ l : List (Json F), itemsRefloat l = l ↔ ∀ x ∈ itemsFloats l, JsonFloat.reparse x = x
  | [] => by simp [itemsRefloat, itemsFloats]
  | j :: js => by
      simp only [itemsRefloat, itemsFloats, List.cons.injEq, List.mem_append, or_imp, forall_and]
      rw [refloat_eq_self_iff j, itemsRefloat_eq_self_iff js]
termination_by structural l => l
theorem entriesRefloat_eq_self_iff [JsonFloat F] :
    ∀ l : List (String × Json F),
      entriesRefloat l = l ↔ ∀ x ∈ entriesFloats l, JsonFloat.reparse x = x
  | [] => by simp [entriesRefloat, entriesFloats]
  | (k, j) :: es => by
      simp only [entriesRefloat, entriesFloats, List.cons.injEq, Prod.mk.injEq, true_and,
        List.mem_append, or_imp, forall_and]
      rw [refloat_eq_self_iff j, entriesRefloat_eq_self_iff es]
termination_by structural l => l
end

mutual
/-- Every object's keys are strictly increasing: the documents that are
`serde_json::Value`s, whose objects are ordered maps. -/
def Sorted : Json F → Prop
  | .arr items => ItemsSorted items
  | .obj entries => (entries.Pairwise fun a b => a.1 < b.1) ∧ EntriesSorted entries
  | _ => True
termination_by structural j => j
def ItemsSorted : List (Json F) → Prop
  | [] => True
  | j :: js => Sorted j ∧ ItemsSorted js
termination_by structural l => l
def EntriesSorted : List (String × Json F) → Prop
  | [] => True
  | (_, j) :: es => Sorted j ∧ EntriesSorted es
termination_by structural l => l
end

mutual
/-- `Value::deserialize`: entries go into an ordered map, the last one of a
repeated key wins. -/
def collect : Json F → Json F
  | .arr items => .arr (itemsCollect items)
  | .obj entries => .obj (OrderedTable.ofList (entriesCollect entries)).rows
  | .null => .null
  | .bool b => .bool b
  | .int n => .int n
  | .float x => .float x
  | .str s => .str s
termination_by structural j => j
def itemsCollect : List (Json F) → List (Json F)
  | [] => []
  | j :: js => collect j :: itemsCollect js
termination_by structural l => l
def entriesCollect : List (String × Json F) → List (String × Json F)
  | [] => []
  | (k, j) :: es => (k, collect j) :: entriesCollect es
termination_by structural l => l
end

theorem entriesSorted_iff (l : List (String × Json F)) :
    EntriesSorted l ↔ ∀ e ∈ l, e.2.Sorted := by
  induction l with
  | nil => simp [EntriesSorted]
  | cons e l ih =>
      obtain ⟨k, j⟩ := e
      simp [EntriesSorted, ih]

mutual
theorem collect_sorted : ∀ j : Json F, j.collect.Sorted
  | .null | .bool _ | .int _ | .float _ | .str _ => by simp [collect, Sorted]
  | .arr items => by simpa [collect, Sorted] using itemsCollect_sorted items
  | .obj entries => by
      refine ⟨(OrderedTable.ofList (entriesCollect entries)).sorted, ?_⟩
      rw [entriesSorted_iff]
      intro e he
      exact entriesCollect_sorted entries e (OrderedTable.mem_ofList he)
termination_by structural j => j
theorem itemsCollect_sorted : ∀ l : List (Json F), ItemsSorted (itemsCollect l)
  | [] => by simp [itemsCollect, ItemsSorted]
  | j :: js => ⟨collect_sorted j, itemsCollect_sorted js⟩
termination_by structural l => l
theorem entriesCollect_sorted :
    ∀ (l : List (String × Json F)), ∀ e ∈ entriesCollect l, e.2.Sorted
  | [], _, he => nomatch he
  | (_, j) :: es, e, he => by
      rcases List.mem_cons.mp he with rfl | he
      · exact collect_sorted j
      · exact entriesCollect_sorted es e he
termination_by structural l => l
end

mutual
theorem collect_eq_self : ∀ {j : Json F}, j.Sorted → j.collect = j
  | .null, _ | .bool _, _ | .int _, _ | .float _, _ | .str _, _ => rfl
  | .arr items, h => by rw [collect, itemsCollect_eq_self h]
  | .obj entries, h => by
      rw [collect, entriesCollect_eq_self h.2]
      exact congrArg (fun t => obj (OrderedTable.rows t)) (OrderedTable.ofList_rows ⟨entries, h.1⟩)
termination_by structural j => j
theorem itemsCollect_eq_self : ∀ {l : List (Json F)}, ItemsSorted l → itemsCollect l = l
  | [], _ => rfl
  | _ :: _, h => by rw [itemsCollect, collect_eq_self h.1, itemsCollect_eq_self h.2]
termination_by structural l => l
theorem entriesCollect_eq_self :
    ∀ {l : List (String × Json F)}, EntriesSorted l → entriesCollect l = l
  | [], _ => rfl
  | (_, _) :: _, h => by rw [entriesCollect, collect_eq_self h.1, entriesCollect_eq_self h.2]
termination_by structural l => l
end

mutual
theorem refloat_sorted [JsonFloat F] : ∀ {j : Json F}, j.Sorted → j.refloat.Sorted
  | .null, _ | .bool _, _ | .int _, _ | .float _, _ | .str _, _ => trivial
  | .arr _, h => by
      rw [refloat, Sorted]
      exact itemsRefloat_sorted h
  | .obj entries, h => by
      rw [refloat, Sorted]
      refine ⟨?_, entriesRefloat_sorted h.2⟩
      rw [entriesRefloat_eq_map]
      exact List.pairwise_map.mpr h.1
termination_by structural j => j
theorem itemsRefloat_sorted [JsonFloat F] :
    ∀ {l : List (Json F)}, ItemsSorted l → ItemsSorted (itemsRefloat l)
  | [], _ => trivial
  | _ :: _, h => ⟨refloat_sorted h.1, itemsRefloat_sorted h.2⟩
termination_by structural l => l
theorem entriesRefloat_sorted [JsonFloat F] :
    ∀ {l : List (String × Json F)}, EntriesSorted l → EntriesSorted (entriesRefloat l)
  | [], _ => trivial
  | (_, _) :: _, h => ⟨refloat_sorted h.1, entriesRefloat_sorted h.2⟩
termination_by structural l => l
end

/-- A `serde_json::Value`. -/
structure Value (F : Type) where
  json : Json F
  sorted : json.Sorted

/-- `Value::deserialize` of a parsed document. -/
def Value.deserialize (j : Json F) : Value F := ⟨j.collect, j.collect_sorted⟩

@[simp] theorem Value.deserialize_json (v : Value F) : Value.deserialize v.json = v := by
  obtain ⟨j, h⟩ := v
  simp [Value.deserialize, collect_eq_self h]

theorem Value.deserialize_refloat_eq_iff [JsonFloat F] (v : Value F) :
    Value.deserialize v.json.refloat = v ↔ v.json.refloat = v.json := by
  obtain ⟨j, h⟩ := v
  simp [Value.deserialize, collect_eq_self (refloat_sorted h)]

end Json
end Aegis

import Aegis.TtyAnalyzer
import Mathlib.Algebra.Group.End

/-!
# Telemetry without content

Two sessions whose inputs differ by a relabelling of the graphic characters are
told apart by nothing but the salted hashes. The lines the two analyzers hold
are relabelled too, and every statistic of a line is blind to the labels.
-/

namespace Aegis

abbrev Graphic : Type := { b : UInt8 // isAsciiGraphic b = true }

/-- A permutation of the graphic bytes, with the other bytes left in place. -/
def relabel (σ : Equiv.Perm Graphic) : Equiv.Perm UInt8 := Equiv.Perm.ofSubtype σ

section Relabel
variable (σ : Equiv.Perm Graphic)

theorem isAsciiGraphic_relabel (b : UInt8) :
    isAsciiGraphic (relabel σ b) = true ↔ isAsciiGraphic b = true :=
  Equiv.Perm.ofSubtype_apply_mem_iff_mem σ b

theorem relabel_of_not_graphic {b : UInt8} (h : ¬ isAsciiGraphic b = true) : relabel σ b = b :=
  Equiv.Perm.ofSubtype_apply_of_not_mem σ h

theorem relabel_eq_iff {b c : UInt8} (hc : ¬ isAsciiGraphic c = true) :
    relabel σ b = c ↔ b = c := by
  conv_lhs => rw [← relabel_of_not_graphic σ hc]
  exact (relabel σ).apply_eq_iff_eq

theorem isPrintable_relabel (b : UInt8) : isPrintable (relabel σ b) = isPrintable b := by
  rw [Bool.eq_iff_iff]
  simp only [isPrintable, Bool.or_eq_true, decide_eq_true_eq, isAsciiGraphic_relabel]
  rw [relabel_eq_iff σ (by decide)]

def relabelLine : Equiv.Perm Printable :=
  (relabel σ).subtypePerm fun b => by rw [isPrintable_relabel]

theorem relabelLine_val (b : Printable) : (relabelLine σ b).val = relabel σ b.val := rfl

end Relabel

theorem Printable.toNat_toChar (b : Printable) : b.toChar.toNat = b.val.toNat := by
  have hvalid : b.val.toNat.isValidChar := Or.inl (b.val.toNat_lt.trans (by decide))
  unfold Printable.toChar
  rw [Char.ofNat, dif_pos hvalid]
  rfl

theorem Printable.toChar_injective : Function.Injective Printable.toChar := by
  intro b c hbc
  have hnat := congrArg Char.toNat hbc
  rw [toNat_toChar, toNat_toChar] at hnat
  exact Subtype.ext (UInt8.toNat_inj.mp hnat)

/-- The one printable byte that separates tokens is the space. -/
theorem isWhitespace_toChar (b : Printable) : isWhitespace b.toChar = true ↔ b.val = 0x20 := by
  have hb := b.property
  simp only [isPrintable, isAsciiGraphic, Bool.or_eq_true, Bool.and_eq_true, decide_eq_true_eq,
    UInt8.le_iff_toNat_le, ← UInt8.toNat_inj, UInt8.reduceToNat] at hb
  simp only [isWhitespace, Printable.toNat_toChar, Bool.or_eq_true, Bool.and_eq_true,
    decide_eq_true_eq, ← UInt8.toNat_inj, UInt8.reduceToNat]
  omega

theorem splitOnP_map {α β : Type*} (f : α → β) (p : β → Bool) (xs : List α) :
    (xs.map f).splitOnP p = (xs.splitOnP (p ∘ f)).map (List.map f) := by
  induction xs with
  | nil => rfl
  | cons x xs ih =>
      rw [List.map_cons, List.splitOnP_cons_eq_if_modifyHead, ih,
        List.splitOnP_cons_eq_if_modifyHead, Function.comp_apply]
      split
      · simp
      · cases xs.splitOnP (p ∘ f) <;> simp

theorem length_splitWhitespace_map {α : Type*} (f : α → Char) (xs : List α) :
    (splitWhitespace (xs.map f)).length =
      ((xs.splitOnP (isWhitespace ∘ f)).filter fun token => !token.isEmpty).length := by
  unfold splitWhitespace
  rw [splitOnP_map, List.filter_map, List.length_map]
  simp [Function.comp_def]

section Statistics
variable (σ : Equiv.Perm Graphic) (line : List Printable)

@[simp] theorem toList_decodeLine (line : List Printable) :
    (decodeLine line).toList = line.map Printable.toChar := by
  simp [decodeLine]

theorem tokens_relabel :
    (splitWhitespace ((line.map (relabelLine σ)).map Printable.toChar)).length =
      (splitWhitespace (line.map Printable.toChar)).length := by
  have hspace : isWhitespace ∘ Printable.toChar ∘ relabelLine σ =
      isWhitespace ∘ Printable.toChar := by
    funext b
    rw [Bool.eq_iff_iff, Function.comp_apply, Function.comp_apply, Function.comp_apply,
      isWhitespace_toChar, isWhitespace_toChar, relabelLine_val, relabel_eq_iff σ (by decide)]
  rw [List.map_map, length_splitWhitespace_map, length_splitWhitespace_map, hspace]

variable {F : Type} [F64 F] (P : Primitives F)

theorem entropy_relabel :
    shannonEntropy P ((line.map (relabelLine σ)).map Printable.toChar) =
      shannonEntropy P (line.map Printable.toChar) := by
  have hcounts := sortedCounts_map_eq
    (Printable.toChar_injective.comp (relabelLine σ).injective) Printable.toChar_injective line
  unfold shannonEntropy
  rw [List.map_map, hcounts]
  simp

theorem levenshtein_relabel (prev : List Printable) :
    levenshtein (decodeLine (prev.map (relabelLine σ))) (decodeLine (line.map (relabelLine σ))) =
      levenshtein (decodeLine prev) (decodeLine line) := by
  simp only [levenshtein_eq, toList_decodeLine, editDistance_map Printable.toChar_injective,
    editDistance_map (relabelLine σ).injective]

end Statistics

/-- A payload without the salted hash. -/
def EventPayload.withoutHash {F : Type} : EventPayload F → EventPayload F
  | .commandObserved sessionId len tokens entropy backspace distance gap _ =>
      .commandObserved sessionId len tokens entropy backspace distance gap ""
  | payload => payload

namespace Analyzer
variable {F : Type} [F64 F] (P : Primitives F) (σ : Equiv.Perm Graphic)

def relabelReads (reads : List Read) : List Read :=
  reads.map fun r => (r.1.map (relabel σ), r.2)

/-- Analyzers that hold the same lines up to a relabelling. -/
def Relabelled (a b : Analyzer) : Prop :=
  ∃ prev : List Printable, a.prevLine = decodeLine prev ∧
    b = { a with
      lineBuf := a.lineBuf.map (relabelLine σ)
      prevLine := decodeLine (prev.map (relabelLine σ)) }

theorem relabelled_new (sessionId : String) (cfg : AnalyzerConfig) :
    Relabelled σ (new sessionId cfg) (new sessionId cfg) := ⟨[], rfl, rfl⟩

theorem finishLine_relabelled {a b : Analyzer} (h : Relabelled σ a b) (now : UInt64) :
    Relabelled σ (finishLine P a now).1 (finishLine P b now).1 ∧
      (finishLine P a now).2.withoutHash = (finishLine P b now).2.withoutHash := by
  obtain ⟨prev, hprev, rfl⟩ := h
  refine ⟨⟨a.lineBuf, rfl, rfl⟩, ?_⟩
  simp only [finishLine, EventPayload.withoutHash, commandStats, toList_decodeLine,
    List.length_map, hprev, tokens_relabel, entropy_relabel, levenshtein_relabel]

theorem Relabelled.withCr {a b : Analyzer} (h : Relabelled σ a b) (cr : Bool) :
    Relabelled σ { a with lastWasCr := cr } { b with lastWasCr := cr } := by
  obtain ⟨prev, hprev, rfl⟩ := h
  exact ⟨prev, hprev, rfl⟩

theorem Relabelled.lastWasCr_eq {a b : Analyzer} (h : Relabelled σ a b) :
    b.lastWasCr = a.lastWasCr := by
  obtain ⟨prev, hprev, rfl⟩ := h
  rfl

/-- A relabelled byte does to the relabelled lines what the byte does: the bytes that
edit or end a line keep their place, and a printable one is appended as it is. -/
theorem onByte_relabelled {a b : Analyzer} (h : Relabelled σ a b) (now : UInt64) (byte : UInt8) :
    Agree (Relabelled σ) (some ∘ EventPayload.withoutHash) (onByte P now a byte)
      (onByte P now b (relabel σ byte)) := by
  have hsame : ∀ c : UInt8, ¬ isAsciiGraphic c = true → (relabel σ byte = c ↔ byte = c) :=
    fun c hc => relabel_eq_iff σ hc
  have hpush : ∀ {a b : Analyzer}, Relabelled σ a b →
      Agree (Relabelled σ) (some ∘ EventPayload.withoutHash)
        ((finishLine P a now).1, [(finishLine P a now).2])
        ((finishLine P b now).1, [(finishLine P b now).2]) := by
    intro a b hab
    have hfinish := finishLine_relabelled P σ hab now
    exact ⟨hfinish.1, by simp [hfinish.2]⟩
  unfold onByte
  simp only [hsame 0x7f (by decide), hsame 0x08 (by decide), hsame 0x0d (by decide),
    hsame 0x0a (by decide), h.lastWasCr_eq]
  by_cases hdelete : byte = 0x7f ∨ byte = 0x08
  · rw [if_pos hdelete, if_pos hdelete]
    obtain ⟨prev, hprev, rfl⟩ := h
    exact ⟨⟨prev, hprev, by simp [List.map_dropLast]⟩, rfl⟩
  rw [if_neg hdelete, if_neg hdelete]
  by_cases hcr : byte = 0x0d
  · rw [if_pos hcr, if_pos hcr]
    exact hpush (h.withCr σ true)
  rw [if_neg hcr, if_neg hcr]
  by_cases hlf : byte = 0x0a
  · rw [if_pos hlf, if_pos hlf]
    split
    · exact ⟨h.withCr σ false, rfl⟩
    · exact hpush h
  rw [if_neg hlf, if_neg hlf]
  by_cases hprint : isPrintable byte = true
  · rw [dif_pos hprint, dif_pos ((isPrintable_relabel σ byte).trans hprint)]
    obtain ⟨prev, hprev, rfl⟩ := h
    refine ⟨⟨prev, hprev, ?_⟩, rfl⟩
    simp only [List.length_map]
    split
    · simp [relabelLine, Equiv.Perm.subtypePerm_apply]
    · rfl
  · rw [dif_neg hprint, dif_neg (by rwa [isPrintable_relabel])]
    exact ⟨h.withCr σ false, rfl⟩

omit [F64 F] in
/-- The keystroke payload counts printable bytes and their neighbours, not which they are. -/
theorem keystroke_relabelled {a b : Analyzer} (h : Relabelled σ a b) (r : Read) :
    (keystroke b (r.1.map (relabel σ)) r.2 : EventPayload F) = keystroke a r.1 r.2 := by
  obtain ⟨prev, hprev, rfl⟩ := h
  simp only [keystroke, List.length_map, List.countP_map, Function.comp_def, isPrintable_relabel]

theorem onRead_relabelled {a b : Analyzer} (h : Relabelled σ a b) (r : Read) :
    Agree (Relabelled σ) (some ∘ EventPayload.withoutHash) (onRead P a r.1 r.2)
      (onRead P b (r.1.map (relabel σ)) r.2) := by
  have hread :
      Relabelled σ { a with lastReadNs := some r.2 } { b with lastReadNs := some r.2 } := by
    obtain ⟨prev, hprev, rfl⟩ := h
    exact ⟨prev, hprev, rfl⟩
  have hbytes := agree_emitAll (fun byte => [relabel σ byte])
    (fun a b byte hab => by simpa using onByte_relabelled P σ hab r.2 byte) hread r.1
  rw [← List.map_eq_flatMap] at hbytes
  refine ⟨hbytes.1, ?_⟩
  simp only [onRead, List.filterMap_cons, Function.comp_apply, keystroke_relabelled σ h]
  exact congrArg _ hbytes.2

/-- What a session tells, the salted hashes apart, does not depend on which graphic
characters were typed. -/
theorem telemetry_content_free (sessionId : String) (cfg : AnalyzerConfig) (reads : List Read) :
    (session P (new sessionId cfg) (relabelReads σ reads)).map EventPayload.withoutHash =
      (session P (new sessionId cfg) reads).map EventPayload.withoutHash := by
  have hstep : ∀ (a b : Analyzer) (r : Read), Relabelled σ a b →
      Agree (Relabelled σ) (some ∘ EventPayload.withoutHash) (onRead P a r.1 r.2)
        (emitAll (fun a r => onRead P a r.1 r.2) b [(r.1.map (relabel σ), r.2)]) := by
    intro a b r hab
    rw [emitAll_singleton]
    exact onRead_relabelled P σ hab r
  have hreads := agree_emitAll (fun r : Read => [(r.1.map (relabel σ), r.2)]) hstep
    (relabelled_new σ sessionId cfg) reads
  rw [← List.map_eq_flatMap] at hreads
  obtain ⟨⟨prev, -, hend⟩, hout⟩ := hreads
  simp only [List.filterMap_eq_map] at hout
  simp only [session, onReads, relabelReads, List.map_append, hend, onSessionEnd, ← hout]

end Analyzer
end Aegis

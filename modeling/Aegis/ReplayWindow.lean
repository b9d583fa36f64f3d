import Aegis.AckPersistence
import Aegis.WindowHistory

/-!
# Replays and the window of ids

The ids that pass both windows of a read loop are the ones that the shared
window takes in, whatever the sessions and their order. So an id passes again
only after the shared window has taken in as many others as it holds.
-/

namespace Aegis
variable {F : Type}
namespace Ingest

/-- The id that a step lets past both windows. -/
def passes (s : Ingest F) : Act F → Option Uuid
  | .check conn => do
      let ses ← s.sessions.get? conn
      let e ← s.next conn
      if e.id ∉ ses.seen ∧ e.id ∉ s.globalDedup then some e.id else none
  | _ => none

theorem next_eq {s : Ingest F} {conn : ℕ} {ses : Session F} {r : Reading F} {e : Event F}
    {rest : List (Event F)} (hses : s.sessions.get? conn = some ses) (hr : ses.reading = some r)
    (hholding : r.holding = .nothing) (htodo : r.todo = e :: rest) : s.next conn = some e := by
  simp [next, hses, hr, hholding, htodo]

variable [JsonFloat F]

theorem Move.takes {s u : Ingest F} {a : Act F} (h : Move s a u) :
    (∃ id, s.passes a = some id ∧ id ∉ s.globalDedup ∧
      u.globalDedup = (s.globalDedup.insert id).2) ∨
    s.passes a = none ∧ u.globalDedup = s.globalDedup := by
  cases h with
  | @skip conn ses r e rest hses hr hholding htodo hknown =>
      right
      have hnot : ¬(e.id ∉ ses.seen ∧ e.id ∉ s.globalDedup) := by tauto
      constructor
      · simp [passes, hses, next_eq hses hr hholding htodo, hnot]
      · rfl
  | @allow conn ses r e rest hses hr hholding htodo hseen hglobal =>
      left
      use e.id
      refine ⟨?_, hglobal, rfl⟩
      simp [passes, hses, next_eq hses hr hholding htodo, hseen, hglobal]
  | _ => exact Or.inr ⟨rfl, rfl⟩

theorem step_follows {s u : Ingest F} {a : Act F} (h : s.step a = some u) {history : List Uuid}
    (hs : s.globalDedup.Follows history) :
    u.globalDedup.Follows (history ++ (s.passes a).toList) := by
  rcases (step_move h).takes with ⟨id, hpasses, hnew, hwindow⟩ | ⟨hpasses, hwindow⟩
  · rw [hpasses, hwindow]
    exact hs.insert hnew
  · rw [hpasses, hwindow, Option.toList_none, List.append_nil]
    exact hs

theorem run_follows {s u : Ingest F} {l : List (Act F)} (h : FreeRun step s l u)
    {history : List Uuid} (hs : s.globalDedup.Follows history) :
    u.globalDedup.Follows (history ++ observed step passes s l) := by
  induction h generalizing history with
  | nil s =>
      rw [observed, List.append_nil]
      exact hs
  | @cons s u v a l _ ht _ ih =>
      simp only [observed, ht, ← List.append_assoc]
      exact ih (step_follows ht hs)

theorem step_capacity {s u : Ingest F} {a : Act F} (h : s.step a = some u) :
    u.globalDedup.capacity = s.globalDedup.capacity := by
  rcases (step_move h).takes with ⟨id, -, -, hwindow⟩ | ⟨-, hwindow⟩
  · rw [hwindow, DedupWindow.insert_capacity]
  · rw [hwindow]

theorem run_capacity {store : Store F} {l : List (Act F)} {s : Ingest F}
    (h : FreeRun step (start store) l s) : s.globalDedup.capacity = globalDedupCapacity :=
  h.invariant (fun s => s.globalDedup.capacity = globalDedupCapacity)
    (fun _ _ _ hs _ ht => (step_capacity ht).trans hs) rfl

/-- In every run, an id that passes twice has at least as many other ids taken in between as
the shared window holds. The window is the last ids that passed, and every window keeps its
set and its queue together, without duplicates and within its capacity, and makes room at the
front alone. -/
theorem replay_needs_full_window (store : Store F) {l : List (Act F)} {s : Ingest F}
    (h : FreeRun step (start store) l s) :
    (∀ before id between after,
      observed step passes (start store) l = before ++ id :: between ++ id :: after →
        globalDedupCapacity ≤ (between.toFinset.erase id).card) ∧
    s.globalDedup.order = (observed step passes (start store) l).drop
      ((observed step passes (start store) l).length - globalDedupCapacity) ∧
    ∀ (w : DedupWindow Uuid) (id : Uuid), (w.insert id).2.set = (w.insert id).2.order.toFinset ∧
      (w.insert id).2.order.Nodup ∧ (w.insert id).2.order.length ≤ w.capacity ∧
      (w.insert id).2.capacity = w.capacity ∧
      (w.insert id).2.order =
        if id ∈ w then w.order else w.order.drop (w.order.length + 1 - w.capacity) ++ [id] := by
  have hfollows := run_follows h (DedupWindow.new_follows globalDedupCapacity)
  rw [List.nil_append] at hfollows
  have hcapacity := run_capacity h
  refine ⟨?_, ?_, ?_⟩
  · intro before id between after heq
    have hspaced := hfollows.spaced
    rw [heq, hcapacity] at hspaced
    exact hspaced.between
  · rw [← hcapacity]
    exact hfollows.recent
  · intro w id
    have hbounded := (w.insert id).2.bounded
    rw [DedupWindow.insert_capacity] at hbounded
    exact ⟨(w.insert id).2.agrees, (w.insert id).2.nodup, hbounded,
      DedupWindow.insert_capacity w id, DedupWindow.insert_order w id⟩

/-- A heartbeat that is sent on two connections passes once. -/
theorem replay_needs_full_window_redelivered :
    ∃ s ∈ execute step (fun _ _ => True) (start (.empty : Store ℚ)) redeliveredRun,
      s.globalDedup.order = (observed step passes (start .empty) redeliveredRun).drop
        ((observed step passes (start .empty) redeliveredRun).length - globalDedupCapacity) := by
  have hend : ∃ s ∈ execute step (fun _ _ => True) (start (.empty : Store ℚ)) redeliveredRun,
      s.globalDedup.order = [.ofDigit 1, .ofDigit 2] := by
    decide +kernel
  obtain ⟨s, hs, -⟩ := hend
  exact ⟨s, hs, (replay_needs_full_window .empty (run_of_execute hs)).2.1⟩

end Ingest
end Aegis

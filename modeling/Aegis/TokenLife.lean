import Aegis.Enrollment

/-!
# The life of an enrollment token

Any number of callers mint, redeem and revoke tokens; the store serialises their
transactions, so a run is a list of calls. A token goes from unused to used in
the transaction that writes its agent, and never back.
-/

namespace Aegis

/-- The tables, every token string ever drawn, and every accepted enrollment
with its token. -/
structure Office where
  registry : Registry
  drawn : List String
  enrolled : List (String × String)

namespace Office
open Enrollment

/-- `fails` says which storage operations of the call fail; the token of `create`
and the agent id of `enroll` are the random values the call draws. -/
inductive Act where
  | create (fails : StorageOp → Bool) (token label : String) (now : UInt64)
  | enroll (fails : StorageOp → Bool) (token hostname os : String) (pubkey : List UInt8)
      (now : UInt64) (agentId : String)
  | revoke (fails : StorageOp → Bool) (token : String)

def start : Office := ⟨⟨.empty, .empty⟩, [], []⟩

def step (s : Office) : Act → Option Office
  | .create fails token label now => some
      { s with
        registry := (createToken fails token label now s.registry).2
        drawn := s.drawn ++ [token] }
  | .enroll fails token hostname os pubkey now agentId =>
      let (result, registry) :=
        Enrollment.enroll fails token hostname os pubkey now agentId s.registry
      some { s with
        registry := registry
        enrolled := match result with
          | .ok (.accepted id) => s.enrolled ++ [(token, id)]
          | _ => s.enrolled }
  | .revoke fails token => some { s with registry := (revokeToken fails token s.registry).2 }

/-- A minted token is a string that was not drawn before. -/
def Fresh (s : Office) : Act → Prop
  | .create _ token _ _ => token ∉ s.drawn
  | _ => True

instance (s : Office) (a : Act) : Decidable (s.Fresh a) := by
  cases a <;> unfold Fresh <;> infer_instance

/-- A stored token is used exactly when an enrollment redeemed it, which happens
once and leaves an agent. -/
structure Sound (s : Office) : Prop where
  drawn : ∀ token row, s.registry.tokens.get? token = some row → token ∈ s.drawn
  spent : ∀ p ∈ s.enrolled, ∃ row, s.registry.tokens.get? p.1 = some row ∧ row.used = true
  used : ∀ token row, s.registry.tokens.get? token = some row → row.used = true →
    token ∈ s.enrolled.map Prod.fst
  once : (s.enrolled.map Prod.fst).Nodup
  agents : ∀ p ∈ s.enrolled, (s.registry.agents.get? p.2).isSome

theorem start_sound : Sound start where
  drawn := nofun
  spent := nofun
  used := nofun
  once := List.nodup_nil
  agents := nofun

/-- What a call does to the tables: nothing, a new unused token, a token burned
for an agent, or an unused token removed. -/
inductive Change (s : Office) : Act → Office → Prop
  | keep {a : Act} (drawn : List String) : (∀ t ∈ s.drawn, t ∈ drawn) →
      Change s a { s with drawn := drawn }
  | mint {fails : StorageOp → Bool} {token label : String} {now : UInt64} :
      Change s (.create fails token label now)
        { s with
          registry := { s.registry with
            tokens := s.registry.tokens.insert token ⟨now, label, false⟩ }
          drawn := s.drawn ++ [token] }
  | burn {fails : StorageOp → Bool} {token hostname os : String} {pubkey : List UInt8}
      {now : UInt64} {agentId : String} {row : TokenRow} :
      s.registry.tokens.get? token = some row → row.used = false →
      Change s (.enroll fails token hostname os pubkey now agentId)
        { s with
          registry := ⟨s.registry.tokens.insert token { row with used := true },
            s.registry.agents.insert agentId ⟨agentId, hostname, os, pubkey, now, now⟩⟩
          enrolled := s.enrolled ++ [(token, agentId)] }
  | remove {fails : StorageOp → Bool} {token : String} {row : TokenRow} :
      s.registry.tokens.get? token = some row → row.used = false →
      Change s (.revoke fails token)
        { s with registry := { s.registry with tokens := s.registry.tokens.erase token } }

theorem step_change {s u : Office} {a : Act} (h : s.step a = some u) : Change s a u := by
  cases a with
  | create fails token label now =>
      cases h
      by_cases hsame : (createToken fails token label now s.registry).2 = s.registry
      · rw [hsame]
        exact Change.keep _ fun t ht => List.mem_append_left _ ht
      · rw [createToken_changed hsame]
        exact Change.mint
  | enroll fails token hostname os pubkey now agentId =>
      have haccepted := fun id => @enroll_accepted fails token hostname os pubkey now agentId id
        s.registry
      have hchanged := @enroll_changed fails token hostname os pubkey now agentId s.registry
      rw [step] at h
      generalize Enrollment.enroll fails token hostname os pubkey now agentId s.registry = r
        at h haccepted hchanged
      obtain ⟨result, registry⟩ := r
      cases h
      by_cases hresult : ∃ id, result = .ok (.accepted id)
      · obtain ⟨id, rfl⟩ := hresult
        obtain ⟨rfl, row, hrow, hused, rfl⟩ := haccepted id rfl
        exact Change.burn hrow hused
      · have hsame : registry = s.registry := by
          by_contra hne
          exact hresult ⟨agentId, hchanged hne⟩
        subst hsame
        split
        · rename_i id
          exact (hresult ⟨id, rfl⟩).elim
        · exact Change.keep s.drawn fun t ht => ht
  | revoke fails token =>
      cases h
      by_cases hsame : (revokeToken fails token s.registry).2 = s.registry
      · rw [hsame]
        exact Change.keep s.drawn fun t ht => ht
      · obtain ⟨row, hrow, hused, heq, -⟩ := revokeToken_changed hsame
        rw [heq]
        exact Change.remove hrow hused

theorem Change.sound {s u : Office} {a : Act} (h : Change s a u) (hs : Sound s)
    (hfresh : s.Fresh a) : Sound u := by
  cases h with
  | keep drawn hsub =>
      exact { hs with drawn := fun token row hrow => hsub token (hs.drawn token row hrow) }
  | @mint fails token label now =>
      have hnew : s.registry.tokens.get? token = none := by
        cases hrow : s.registry.tokens.get? token with
        | none => rfl
        | some row => exact (hfresh (hs.drawn token row hrow)).elim
      constructor
      · intro t row hrow
        by_cases ht : t = token
        · rw [ht]
          exact List.mem_append_right _ (by simp)
        · rw [OrderedTable.get?_insert_ne _ _ ht] at hrow
          exact List.mem_append_left _ (hs.drawn t row hrow)
      · intro p hp
        obtain ⟨row, hrow, hused⟩ := hs.spent p hp
        have hne : p.1 ≠ token := by
          rintro rfl
          rw [hnew] at hrow
          cases hrow
        rw [OrderedTable.get?_insert_ne _ _ hne]
        exact ⟨row, hrow, hused⟩
      · intro t row hrow hused
        by_cases ht : t = token
        · rw [ht, OrderedTable.get?_insert_self] at hrow
          cases hrow
          cases hused
        · rw [OrderedTable.get?_insert_ne _ _ ht] at hrow
          exact hs.used t row hrow hused
      · exact hs.once
      · exact hs.agents
  | @burn fails token hostname os pubkey now agentId row hrow hused =>
      have hnew : token ∉ s.enrolled.map Prod.fst := by
        intro hmem
        obtain ⟨p, hp, rfl⟩ := List.mem_map.mp hmem
        obtain ⟨row', hrow', hused'⟩ := hs.spent p hp
        rw [hrow] at hrow'
        cases hrow'
        rw [hused] at hused'
        cases hused'
      constructor
      · intro t row' hrow'
        by_cases ht : t = token
        · rw [ht]
          exact hs.drawn token row hrow
        · rw [OrderedTable.get?_insert_ne _ _ ht] at hrow'
          exact hs.drawn t row' hrow'
      · intro p hp
        by_cases ht : p.1 = token
        · rw [ht, OrderedTable.get?_insert_self]
          exact ⟨_, rfl, rfl⟩
        · rw [OrderedTable.get?_insert_ne _ _ ht]
          rcases List.mem_append.mp hp with hp | hp
          · exact hs.spent p hp
          · exact (ht (by rw [List.mem_singleton.mp hp])).elim
      · intro t row' hrow' hused'
        rw [List.map_append]
        by_cases ht : t = token
        · rw [ht]
          exact List.mem_append_right _ (by simp)
        · rw [OrderedTable.get?_insert_ne _ _ ht] at hrow'
          exact List.mem_append_left _ (hs.used t row' hrow' hused')
      · rw [List.map_append]
        apply List.nodup_append.mpr
        refine ⟨hs.once, by simp, ?_⟩
        intro a ha b hb hab
        rw [List.map_singleton, List.mem_singleton] at hb
        rw [hab, hb] at ha
        exact hnew ha
      · intro p hp
        by_cases hid : p.2 = agentId
        · rw [hid, OrderedTable.get?_insert_self]
          rfl
        · rw [OrderedTable.get?_insert_ne _ _ hid]
          rcases List.mem_append.mp hp with hp | hp
          · exact hs.agents p hp
          · exact (hid (by rw [List.mem_singleton.mp hp])).elim
  | @remove fails token row hrow hused =>
      constructor
      · intro t row' hrow'
        exact hs.drawn t row' (OrderedTable.get?_erase_some hrow').2
      · intro p hp
        obtain ⟨row', hrow', hused'⟩ := hs.spent p hp
        have hne : p.1 ≠ token := by
          rintro rfl
          rw [hrow] at hrow'
          cases hrow'
          rw [hused] at hused'
          cases hused'
        rw [OrderedTable.get?_erase_ne _ hne]
        exact ⟨row', hrow', hused'⟩
      · intro t row' hrow' hused'
        exact hs.used t row' (OrderedTable.get?_erase_some hrow').2 hused'
      · exact hs.once
      · exact hs.agents

theorem run_sound {l : List Act} {s : Office} (h : GuardedRun step Fresh start l s) : Sound s :=
  h.invariant Sound (fun _ _ _ hs hg ht => (step_change ht).sound hs hg) start_sound

theorem Change.keeps_used {s u : Office} {a : Act} (h : Change s a u) (hs : Sound s)
    (hfresh : s.Fresh a) {token : String} {row : TokenRow}
    (hrow : s.registry.tokens.get? token = some row) (hused : row.used = true) :
    ∃ row', u.registry.tokens.get? token = some row' ∧ row'.used = true := by
  cases h with
  | keep drawn hsub => exact ⟨row, hrow, hused⟩
  | @mint fails token' label now =>
      have hne : token ≠ token' := by
        rintro rfl
        exact hfresh (hs.drawn token row hrow)
      rw [OrderedTable.get?_insert_ne _ _ hne]
      exact ⟨row, hrow, hused⟩
  | @burn fails token' hostname os pubkey now agentId row' hrow' hused' =>
      by_cases ht : token = token'
      · rw [ht, OrderedTable.get?_insert_self]
        exact ⟨_, rfl, rfl⟩
      · rw [OrderedTable.get?_insert_ne _ _ ht]
        exact ⟨row, hrow, hused⟩
  | @remove fails token' row' hrow' hused' =>
      have hne : token ≠ token' := by
        rintro rfl
        rw [hrow] at hrow'
        cases hrow'
        rw [hused] at hused'
        cases hused'
      rw [OrderedTable.get?_erase_ne _ hne]
      exact ⟨row, hrow, hused⟩

/-- In every run over fresh token strings: a token enrolls one agent at most; a
stored token is used exactly when an agent was enrolled with it; an enrollment
that is not accepted changes nothing; a revocation changes nothing or removes an
unused token; and no call makes a used token unused or forgets it. -/
theorem tokens_single_use {l : List Act} {s : Office} (h : GuardedRun step Fresh start l s) :
    (s.enrolled.map Prod.fst).Nodup ∧
    (∀ token row, s.registry.tokens.get? token = some row →
      (row.used = true ↔ ∃ agentId, (token, agentId) ∈ s.enrolled ∧
        (s.registry.agents.get? agentId).isSome)) ∧
    (∀ fails token hostname os pubkey now agentId,
      (∀ id, (Enrollment.enroll fails token hostname os pubkey now agentId s.registry).1 ≠
        .ok (.accepted id)) →
      (Enrollment.enroll fails token hostname os pubkey now agentId s.registry).2 = s.registry) ∧
    (∀ fails token, (revokeToken fails token s.registry).2 = s.registry ∨
      ∃ row, s.registry.tokens.get? token = some row ∧ row.used = false ∧
        (revokeToken fails token s.registry).2 =
          { s.registry with tokens := s.registry.tokens.erase token }) ∧
    ∀ a u, s.Fresh a → s.step a = some u → ∀ token row,
      s.registry.tokens.get? token = some row → row.used = true →
        ∃ row', u.registry.tokens.get? token = some row' ∧ row'.used = true := by
  have hs := run_sound h
  refine ⟨hs.once, ?_, ?_, ?_, ?_⟩
  · intro token row hrow
    constructor
    · intro hused
      obtain ⟨p, hp, rfl⟩ := List.mem_map.mp (hs.used token row hrow hused)
      exact ⟨p.2, hp, hs.agents p hp⟩
    · rintro ⟨agentId, hp, -⟩
      obtain ⟨row', hrow', hused⟩ := hs.spent _ hp
      rw [hrow] at hrow'
      cases hrow'
      exact hused
  · intro fails token hostname os pubkey now agentId hreject
    by_contra hchanged
    exact hreject agentId (enroll_changed hchanged)
  · intro fails token
    by_cases hsame : (revokeToken fails token s.registry).2 = s.registry
    · exact Or.inl hsame
    · obtain ⟨row, hrow, hused, heq, -⟩ := revokeToken_changed hsame
      exact Or.inr ⟨row, hrow, hused, heq⟩
  · intro a u hfresh hstep token row hrow hused
    exact (step_change hstep).keeps_used hs hfresh hrow hused

/-- No storage operation fails. -/
def sure : StorageOp → Bool := fun _ => false

/-- Two redemptions of one token, a crash before a commit, and a revocation. -/
def redeemedRun : List Act :=
  [.create sure "a0" "laptop" 0, .enroll sure "a0" "host-a" "Linux" [9] 5 "agent-1",
    .enroll sure "a0" "host-b" "Linux" [8] 6 "agent-2", .create sure "b1" "server" 7,
    .enroll (fun op => op = .commit) "b1" "host-c" "Linux" [7] 8 "agent-3", .revoke sure "b1",
    .revoke sure "a0"]

theorem tokens_single_use_redeemed :
    ∃ s ∈ execute step Fresh start redeemedRun, (s.enrolled.map Prod.fst).Nodup := by
  have hend : ∃ s ∈ execute step Fresh start redeemedRun,
      s.enrolled = [("a0", "agent-1")] ∧ s.registry.tokens.rows.map Prod.fst = ["a0"] := by
    decide +kernel
  obtain ⟨s, hs, -⟩ := hend
  exact ⟨s, hs, (tokens_single_use (run_of_execute hs)).1⟩

end Office
end Aegis

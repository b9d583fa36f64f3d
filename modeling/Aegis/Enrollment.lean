import Aegis.GuardedRun
import Aegis.Store

/-!
# Enrollment tokens

`enroll.rs` over the token and agent tables of `store.rs`: minting, revocation,
and the transaction that burns a token and writes an agent. A call names the
storage operations that fail in it; an error anywhere drops the transaction.
-/

namespace Aegis

structure TokenRow where
  createdAtNs : UInt64
  label : String
  used : Bool
deriving DecidableEq, Repr

inductive EnrollReject where
  | unknownToken | tokenUsed | tokenExpired
deriving DecidableEq, Repr

/-- The reason shown to the agent. -/
def EnrollReject.display : EnrollReject → String
  | .unknownToken => "unknown or invalid enrollment token"
  | .tokenUsed => "enrollment token already used"
  | .tokenExpired => "enrollment token expired"

/-- What may fail in a transaction: its start and commit, opening or reading a
table, decoding or encoding a row, and writing one. -/
inductive StorageOp where
  | begin | openTokens | readToken | decodeToken | encodeToken | writeToken
  | openAgents | encodeAgent | writeAgent | commit
deriving DecidableEq, Repr

/-- The two tables of enrollment. -/
structure Registry where
  tokens : OrderedTable String TokenRow
  agents : OrderedTable String AgentRow
deriving DecidableEq

/-- The body of a transaction, on its own view of the tables. -/
abbrev Txn (α : Type) : Type := StateT Registry (Except StorageOp) α

namespace Txn

def attempt (fails : StorageOp → Bool) (op : StorageOp) : Txn Unit :=
  if fails op then throw op else pure ()

/-- Reads and decodes a token row. -/
def token (fails : StorageOp → Bool) (token : String) : Txn (Option TokenRow) := do
  attempt fails .openTokens
  attempt fails .readToken
  match (← get).tokens.get? token with
  | none => pure none
  | some row =>
      attempt fails .decodeToken
      pure (some row)

def putToken (fails : StorageOp → Bool) (token : String) (row : TokenRow) : Txn Unit := do
  attempt fails .encodeToken
  attempt fails .writeToken
  modify fun s => { s with tokens := s.tokens.insert token row }

def putAgent (fails : StorageOp → Bool) (row : AgentRow) : Txn Unit := do
  attempt fails .encodeAgent
  attempt fails .openAgents
  attempt fails .writeAgent
  modify fun s => { s with agents := s.agents.insert row.agentId row }

/-- Runs a body and commits where its result asks for it; an error or a dropped
transaction leaves the tables as they were. -/
def run {α : Type} (fails : StorageOp → Bool) (commits : α → Bool) (body : Txn α)
    (s : Registry) : Except StorageOp α × Registry :=
  if fails .begin then (.error .begin, s) else
    match StateT.run body s with
    | .error op => (.error op, s)
    | .ok (result, s') =>
        if !commits result then (.ok result, s)
        else if fails .commit then (.error .commit, s)
        else (.ok result, s')

/-- Tables that a transaction changed are those of its body, committed. -/
theorem run_changed {α : Type} {fails : StorageOp → Bool} {commits : α → Bool} {body : Txn α}
    {s : Registry} (h : (run fails commits body s).2 ≠ s) : ∃ result,
    StateT.run body s = .ok (result, (run fails commits body s).2) ∧ commits result = true ∧
      (run fails commits body s).1 = .ok result := by
  unfold run at h ⊢
  by_cases hbegin : fails .begin = true
  · simp [hbegin] at h
  · simp only [hbegin, Bool.false_eq_true, if_false] at h ⊢
    cases hbody : StateT.run body s with
    | error op => simp [hbody] at h
    | ok r =>
        obtain ⟨result, s'⟩ := r
        simp only [hbody] at h ⊢
        by_cases hcommits : commits result = true
        · by_cases hcommit : fails .commit = true
          · simp [hcommits, hcommit] at h
          · use result
            simp [hcommits, hcommit]
        · simp [hcommits] at h

theorem run_committed {α : Type} {fails : StorageOp → Bool} {commits : α → Bool} {body : Txn α}
    {s : Registry} {result : α} (h : (run fails commits body s).1 = .ok result)
    (hcommits : commits result = true) :
    StateT.run body s = .ok (result, (run fails commits body s).2) := by
  unfold run at h ⊢
  by_cases hbegin : fails .begin = true
  · simp [hbegin] at h
  · simp only [hbegin, Bool.false_eq_true, if_false] at h ⊢
    cases hbody : StateT.run body s with
    | error op => simp [hbody] at h
    | ok r =>
        obtain ⟨result', s'⟩ := r
        simp only [hbody] at h ⊢
        by_cases hdone : commits result' = true
        · by_cases hcommit : fails .commit = true
          · simp [hdone, hcommit] at h
          · simp_all
        · simp only [hdone, Bool.not_false, if_true, Except.ok.injEq] at h
          exact (hdone (h ▸ hcommits)).elim

theorem run_bind {α β : Type} {x : Txn α} {f : α → Txn β} {s s'' : Registry} {b : β}
    (h : StateT.run (x >>= f) s = .ok (b, s'')) :
    ∃ a s', StateT.run x s = .ok (a, s') ∧ StateT.run (f a) s' = .ok (b, s'') := by
  rw [StateT.run_bind] at h
  cases hx : StateT.run x s with
  | error op =>
      rw [hx] at h
      cases h
  | ok r =>
      rw [hx] at h
      exact ⟨r.1, r.2, rfl, h⟩

theorem attempt_ok {fails : StorageOp → Bool} {op : StorageOp} {s s' : Registry} {u : Unit}
    (h : StateT.run (attempt fails op) s = .ok (u, s')) : s' = s := by
  unfold attempt at h
  split_ifs at h
  · cases h
  · cases h
    rfl

theorem token_ok {fails : StorageOp → Bool} {token : String} {s s' : Registry}
    {row : Option TokenRow} (h : StateT.run (Txn.token fails token) s = .ok (row, s')) :
    s' = s ∧ row = s.tokens.get? token := by
  obtain ⟨_, s₁, h₁, h⟩ := run_bind h
  obtain ⟨_, s₂, h₂, h⟩ := run_bind h
  cases attempt_ok h₁
  cases attempt_ok h₂
  obtain ⟨s₃, s₄, h₃, h⟩ := run_bind h
  cases h₃
  cases hrow : s.tokens.get? token with
  | none =>
      rw [hrow] at h
      cases h
      exact ⟨rfl, rfl⟩
  | some row' =>
      rw [hrow] at h
      obtain ⟨_, s₅, h₅, h⟩ := run_bind h
      cases attempt_ok h₅
      cases h
      exact ⟨rfl, rfl⟩

theorem putToken_ok {fails : StorageOp → Bool} {token : String} {row : TokenRow}
    {s s' : Registry} {u : Unit} (h : StateT.run (putToken fails token row) s = .ok (u, s')) :
    s' = { s with tokens := s.tokens.insert token row } := by
  obtain ⟨_, s₁, h₁, h⟩ := run_bind h
  obtain ⟨_, s₂, h₂, h⟩ := run_bind h
  cases attempt_ok h₁
  cases attempt_ok h₂
  cases h
  rfl

theorem putAgent_ok {fails : StorageOp → Bool} {row : AgentRow} {s s' : Registry} {u : Unit}
    (h : StateT.run (putAgent fails row) s = .ok (u, s')) :
    s' = { s with agents := s.agents.insert row.agentId row } := by
  obtain ⟨_, s₁, h₁, h⟩ := run_bind h
  obtain ⟨_, s₂, h₂, h⟩ := run_bind h
  obtain ⟨_, s₃, h₃, h⟩ := run_bind h
  cases attempt_ok h₁
  cases attempt_ok h₂
  cases attempt_ok h₃
  cases h
  rfl

end Txn

namespace Enrollment

def tokenValidityNs : ℕ := 24 * 60 * 60 * 1000000000

def maxEnrollFieldLen : ℕ := 255

def maxTokenLabelLen : ℕ := 256

/-- `Store::insert_token`. -/
def insertToken (fails : StorageOp → Bool) (token : String) (row : TokenRow) (s : Registry) :
    Except StorageOp Unit × Registry :=
  Txn.run fails (fun _ => true) (do
    Txn.attempt fails .openTokens
    Txn.putToken fails token row) s

/-- `create_token` with the random token and the clock it reads; nothing where
the label is too long. -/
def createToken (fails : StorageOp → Bool) (token label : String) (now : UInt64) (s : Registry) :
    Option (Except StorageOp Unit) × Registry :=
  if maxTokenLabelLen < label.utf8ByteSize then (none, s) else
    let (result, s') := insertToken fails token ⟨now, label, false⟩ s
    (some result, s')

/-- `revoke_token`: whether a still unused token was removed. -/
def revokeToken (fails : StorageOp → Bool) (token : String) (s : Registry) :
    Except StorageOp Bool × Registry :=
  Txn.run fails (fun _ => true) (do
    match ← Txn.token fails token with
    | none => pure false
    | some row =>
        if row.used then pure false else
          Txn.attempt fails .writeToken
          modify fun s => { s with tokens := s.tokens.erase token }
          pure true) s

/-- The decision and the two writes of `enroll_txn`. -/
def enrollBody (fails : StorageOp → Bool) (token : String) (now : UInt64) (validityNs : ℕ)
    (hostname os : String) (pubkey : List UInt8) (agentId : String) :
    Txn (Except EnrollReject AgentRow) := do
  match ← Txn.token fails token with
  | none => pure (.error .unknownToken)
  | some row =>
      if row.used then pure (.error .tokenUsed)
      else if validityNs < now.toNat - row.createdAtNs.toNat then pure (.error .tokenExpired)
      else
        Txn.putToken fails token { row with used := true }
        let agent : AgentRow := ⟨agentId, hostname, os, pubkey, now, now⟩
        Txn.putAgent fails agent
        pure (.ok agent)

/-- `Store::enroll_txn`, which commits when an agent was enrolled. -/
def enrollTxn (fails : StorageOp → Bool) (token : String) (now : UInt64) (validityNs : ℕ)
    (hostname os : String) (pubkey : List UInt8) (agentId : String) (s : Registry) :
    Except StorageOp (Except EnrollReject AgentRow) × Registry :=
  Txn.run fails Except.isOk (enrollBody fails token now validityNs hostname os pubkey agentId) s

inductive EnrollOutcome where
  | accepted (agentId : String)
  | rejected (reason : String)
deriving DecidableEq, Repr

/-- `enroll`. -/
def enroll (fails : StorageOp → Bool) (token hostname os : String) (pubkey : List UInt8)
    (now : UInt64) (agentId : String) (s : Registry) :
    Except StorageOp EnrollOutcome × Registry :=
  if maxEnrollFieldLen < hostname.utf8ByteSize ∨ maxEnrollFieldLen < os.utf8ByteSize then
    (.ok (.rejected ("hostname/os too long (max " ++ toString maxEnrollFieldLen ++
      " bytes each)")), s)
  else
    let (result, s') := enrollTxn fails token now tokenValidityNs hostname os pubkey agentId s
    (result.map fun r => match r with
      | .ok agent => .accepted agent.agentId
      | .error reject => .rejected reject.display, s')

theorem insertToken_changed {fails : StorageOp → Bool} {token : String} {row : TokenRow}
    {s : Registry} (h : (insertToken fails token row s).2 ≠ s) :
    (insertToken fails token row s).2 = { s with tokens := s.tokens.insert token row } := by
  obtain ⟨_, hbody, -, -⟩ := Txn.run_changed h
  obtain ⟨_, s₁, h₁, hbody⟩ := Txn.run_bind hbody
  cases Txn.attempt_ok h₁
  exact Txn.putToken_ok hbody

theorem createToken_changed {fails : StorageOp → Bool} {token label : String} {now : UInt64}
    {s : Registry} (h : (createToken fails token label now s).2 ≠ s) :
    (createToken fails token label now s).2 =
      { s with tokens := s.tokens.insert token ⟨now, label, false⟩ } := by
  unfold createToken at h ⊢
  split_ifs at h ⊢
  · exact (h rfl).elim
  · exact insertToken_changed h

/-- A revocation that changes anything removes the token, which is unused. -/
theorem revokeToken_changed {fails : StorageOp → Bool} {token : String} {s : Registry}
    (h : (revokeToken fails token s).2 ≠ s) : ∃ row, s.tokens.get? token = some row ∧
      row.used = false ∧ (revokeToken fails token s).2 = { s with tokens := s.tokens.erase token } ∧
      (revokeToken fails token s).1 = .ok true := by
  obtain ⟨result, hbody, -, hresult⟩ := Txn.run_changed h
  obtain ⟨row, s₁, h₁, hbody⟩ := Txn.run_bind hbody
  obtain ⟨rfl, rfl⟩ := Txn.token_ok h₁
  cases hrow : s₁.tokens.get? token with
  | none =>
      rw [hrow] at hbody
      exact (h (congrArg Prod.snd (Except.ok.inj hbody)).symm).elim
  | some row =>
      rw [hrow] at hbody
      simp only at hbody
      split_ifs at hbody with hused
      · exact (h (congrArg Prod.snd (Except.ok.inj hbody)).symm).elim
      · obtain ⟨_, s₂, h₂, hbody⟩ := Txn.run_bind hbody
        cases Txn.attempt_ok h₂
        obtain ⟨_, s₃, h₃, hbody⟩ := Txn.run_bind hbody
        cases h₃
        have hpair := Except.ok.inj hbody
        exact ⟨row, rfl, by simpa using hused, (congrArg Prod.snd hpair).symm,
          hresult.trans (congrArg Except.ok (congrArg Prod.fst hpair).symm)⟩

/-- An enrollment that succeeds burns an unused token and writes its agent. -/
theorem enrollBody_ok {fails : StorageOp → Bool} {token hostname os : String}
    {pubkey : List UInt8} {now : UInt64} {validityNs : ℕ} {agentId : String} {s s' : Registry}
    {agent : AgentRow}
    (h : StateT.run (enrollBody fails token now validityNs hostname os pubkey agentId) s =
      .ok (.ok agent, s')) :
    ∃ row, s.tokens.get? token = some row ∧ row.used = false ∧
      agent = ⟨agentId, hostname, os, pubkey, now, now⟩ ∧
      s' = ⟨s.tokens.insert token { row with used := true }, s.agents.insert agentId agent⟩ := by
  obtain ⟨row, s₁, h₁, h⟩ := Txn.run_bind h
  obtain ⟨rfl, rfl⟩ := Txn.token_ok h₁
  cases hrow : s₁.tokens.get? token with
  | none =>
      rw [hrow] at h
      cases congrArg Prod.fst (Except.ok.inj h)
  | some row =>
      rw [hrow] at h
      simp only at h
      split_ifs at h with hused hexpired
      · cases congrArg Prod.fst (Except.ok.inj h)
      · cases congrArg Prod.fst (Except.ok.inj h)
      · obtain ⟨_, s₂, h₂, h⟩ := Txn.run_bind h
        cases Txn.putToken_ok h₂
        obtain ⟨_, s₃, h₃, h⟩ := Txn.run_bind h
        cases Txn.putAgent_ok h₃
        cases h
        exact ⟨row, rfl, by simpa using hused, rfl, rfl⟩

theorem enroll_accepted {fails : StorageOp → Bool} {token hostname os : String}
    {pubkey : List UInt8} {now : UInt64} {agentId id : String} {s : Registry}
    (h : (enroll fails token hostname os pubkey now agentId s).1 = .ok (.accepted id)) :
    id = agentId ∧ ∃ row, s.tokens.get? token = some row ∧ row.used = false ∧
      (enroll fails token hostname os pubkey now agentId s).2 =
        ⟨s.tokens.insert token { row with used := true },
          s.agents.insert agentId ⟨agentId, hostname, os, pubkey, now, now⟩⟩ := by
  unfold enroll at h ⊢
  split_ifs at h ⊢
  · cases h
  · simp only at h ⊢
    cases hresult : (enrollTxn fails token now tokenValidityNs hostname os pubkey agentId s).1 with
    | error op =>
        rw [hresult] at h
        cases h
    | ok result =>
        rw [hresult] at h
        cases result with
        | error reject => cases h
        | ok agent =>
            have hbody := Txn.run_committed hresult rfl
            obtain ⟨row, hrow, hused, hagent, hs'⟩ := enrollBody_ok hbody
            subst hagent
            cases h
            exact ⟨rfl, row, hrow, hused, hs'⟩

theorem enroll_changed {fails : StorageOp → Bool} {token hostname os : String}
    {pubkey : List UInt8} {now : UInt64} {agentId : String} {s : Registry}
    (h : (enroll fails token hostname os pubkey now agentId s).2 ≠ s) :
    (enroll fails token hostname os pubkey now agentId s).1 = .ok (.accepted agentId) := by
  unfold enroll at h ⊢
  split_ifs at h ⊢
  · exact (h rfl).elim
  · obtain ⟨result, hbody, hok, hresult⟩ := Txn.run_changed h
    simp only [enrollTxn, hresult]
    cases result with
    | error reject => cases hok
    | ok agent =>
        obtain ⟨row, -, -, hagent, -⟩ := enrollBody_ok hbody
        rw [hagent]
        rfl

end Enrollment
end Aegis

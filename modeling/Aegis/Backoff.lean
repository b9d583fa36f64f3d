import Aegis.GuardedRun
import Mathlib.Data.List.Chain
import Mathlib.Data.UInt

/-!
# Reconnect backoff

The outer loop of `actor.rs`. An attempt connects, shakes hands and serves; the
loop then decides from the time since the attempt began whether its exponent
starts over, and sleeps for a random time below a bound that doubles with the
exponent. Times of attempts are in nanoseconds and delays in milliseconds.
-/

namespace Aegis

def saturatingMul (a b : UInt64) : UInt64 :=
  if a.toNat * b.toNat < UInt64.size then a * b else 18446744073709551615

def saturatingSucc (exp : UInt32) : UInt32 := if exp = 4294967295 then exp else exp + 1

theorem saturatingMul_toNat (a b : UInt64) :
    (saturatingMul a b).toNat = min (a.toNat * b.toNat) (UInt64.size - 1) := by
  unfold saturatingMul
  split_ifs with h
  · rw [UInt64.toNat_mul, Nat.mod_eq_of_lt h]
    omega
  · rw [min_eq_right (by omega)]
    rfl

theorem saturatingSucc_ne (exp : UInt32) : saturatingSucc exp ≠ 0 := by
  unfold saturatingSucc
  split_ifs with h
  · rw [h]
    decide
  · intro hzero
    apply h
    have hsucc : (exp + 1) - 1 = (0 : UInt32) - 1 := by rw [hzero]
    rw [UInt32.add_sub_cancel] at hsucc
    rw [hsucc]
    rfl

structure BackoffConfig where
  backoffMinMs : UInt64 := 500
  backoffMaxMs : UInt64 := 30000

namespace BackoffConfig

def base (cfg : BackoffConfig) : UInt64 := max cfg.backoffMinMs 1

/-- A ceiling below the floor is raised to it. -/
def ceil (cfg : BackoffConfig) : UInt64 := max cfg.backoffMaxMs cfg.base

def bound (cfg : BackoffConfig) (exp : UInt32) : UInt64 :=
  min (saturatingMul cfg.base (1 <<< (min exp 20).toUInt64)) cfg.ceil

/-- The delay for a draw from `0..=bound`. -/
def backoffDelay (cfg : BackoffConfig) (exp : UInt32) (jitter : UInt64) : Option UInt64 :=
  if jitter ≤ cfg.bound exp then some (max jitter 1) else none

/-- How long a session has to stay up to be considered healthy. -/
def graceNs (cfg : BackoffConfig) : ℕ := cfg.backoffMinMs.toNat * 1000000

theorem toNat_max (a b : UInt64) : (max a b).toNat = max a.toNat b.toNat := by
  show (if a ≤ b then b else a).toNat = _
  split <;> rename_i h <;> simp only [UInt64.le_iff_toNat_le] at h <;> omega

theorem toNat_min (a b : UInt64) : (min a b).toNat = min a.toNat b.toNat := by
  show (if a ≤ b then a else b).toNat = _
  split <;> rename_i h <;> simp only [UInt64.le_iff_toNat_le] at h <;> omega

theorem shift_toNat (exp : UInt32) :
    ((1 : UInt64) <<< (min exp 20).toUInt64).toNat = 2 ^ min exp.toNat 20 := by
  have hmin : (min exp 20).toNat = min exp.toNat 20 := by
    show (if exp ≤ 20 then exp else 20).toNat = _
    split <;> rename_i h <;> simp only [UInt32.le_iff_toNat_le] at h
    · exact (min_eq_left h).symm
    · exact (min_eq_right (not_le.mp h).le).symm
  have hle : min exp.toNat 20 ≤ 20 := min_le_right _ _
  have hpow : 2 ^ min exp.toNat 20 < 2 ^ 64 := Nat.pow_lt_pow_right (by omega) (by omega)
  have hmod : min exp.toNat 20 % 64 = min exp.toNat 20 := Nat.mod_eq_of_lt (by omega)
  rw [UInt64.toNat_shiftLeft, UInt32.toNat_toUInt64, hmin, hmod, Nat.shiftLeft_eq,
    UInt64.toNat_one, one_mul, Nat.mod_eq_of_lt hpow]

theorem bound_toNat (cfg : BackoffConfig) (exp : UInt32) :
    (cfg.bound exp).toNat =
      min (cfg.base.toNat * 2 ^ min exp.toNat 20) cfg.ceil.toNat := by
  have hceil := cfg.ceil.toNat_lt
  rw [bound, toNat_min, saturatingMul_toNat, shift_toNat, min_assoc]
  congr 1
  apply min_eq_right
  rw [UInt64.size]
  omega

theorem one_le_base (cfg : BackoffConfig) : 1 ≤ cfg.base.toNat := by
  rw [base, toNat_max]
  exact le_max_right _ _

theorem base_le_bound (cfg : BackoffConfig) (exp : UInt32) :
    cfg.base.toNat ≤ (cfg.bound exp).toNat := by
  rw [bound_toNat, ceil, toNat_max]
  exact le_min (Nat.le_mul_of_pos_right _ (Nat.two_pow_pos _)) (le_max_right _ _)

theorem backoffDelay_bounds {cfg : BackoffConfig} (hceil : cfg.base ≤ cfg.backoffMaxMs)
    {exp : UInt32} {jitter delay : UInt64} (h : cfg.backoffDelay exp jitter = some delay) :
    1 ≤ delay.toNat ∧ delay.toNat ≤ cfg.backoffMaxMs.toNat := by
  unfold backoffDelay at h
  split_ifs at h with hjitter
  cases h
  rw [UInt64.le_iff_toNat_le] at hceil
  rw [UInt64.le_iff_toNat_le, bound_toNat, ceil, toNat_max, max_eq_left hceil] at hjitter
  have hbase := cfg.one_le_base
  have hle : jitter.toNat ≤ cfg.backoffMaxMs.toNat := hjitter.trans (min_le_right _ _)
  rw [toNat_max, UInt64.toNat_one]
  omega

theorem backoffDelay_base (cfg : BackoffConfig) (exp : UInt32) :
    cfg.backoffDelay exp cfg.base = some cfg.base := by
  have hle : cfg.base ≤ cfg.bound exp := UInt64.le_iff_toNat_le.mpr (cfg.base_le_bound exp)
  have hone : (1 : UInt64) ≤ cfg.base := UInt64.le_iff_toNat_le.mpr cfg.one_le_base
  rw [backoffDelay, if_pos hle, Option.some.injEq]
  apply UInt64.toNat_inj.mp
  rw [toNat_max]
  exact max_eq_left (UInt64.le_iff_toNat_le.mp hone)

end BackoffConfig

inductive SessionEnd where
  | retry
  | fatal
  | shutdown
  deriving DecidableEq

/-- Where an attempt that does not get through fails. -/
inductive ConnectStage where
  | serverUrl
  | tcp
  | tls
  | exporter
  | handshake
  deriving DecidableEq

/-- How an attempt goes: it fails on its way, the server refuses the protocol version, or it
reaches Online and is served until an error or a shutdown. -/
inductive Course where
  | failed (stage : ConnectStage)
  | refused
  | served (shutdown : Bool)
  deriving DecidableEq

def connectAndServe : Course → SessionEnd
  | .failed _ => .retry
  | .refused => .fatal
  | .served false => .retry
  | .served true => .shutdown

/-- An attempt with its times, the draw for the delay after it, and whether a shutdown is
requested before or during that delay. -/
structure Attempt where
  course : Course
  online : ℕ
  elapsed : ℕ
  within : online ≤ elapsed
  jitter : UInt64
  stopped : Bool
  interrupted : Bool
  deriving DecidableEq

/-- The attempt reached Online and stayed there for the grace. -/
def Attempt.Healthy (cfg : BackoffConfig) (a : Attempt) : Prop :=
  (∃ shutdown, a.course = .served shutdown) ∧ cfg.graceNs ≤ a.online

structure Reconnect where
  backoffExp : UInt32
  running : Bool

namespace Reconnect

inductive Act where
  | stop
  | attempt (a : Attempt)

def start : Reconnect := ⟨0, true⟩

/-- The exponent for the delay after an attempt. -/
def resumed (cfg : BackoffConfig) (exp : UInt32) (a : Attempt) : UInt32 :=
  if cfg.graceNs ≤ a.elapsed ∧ 0 < exp then 0 else exp

def step (cfg : BackoffConfig) (s : Reconnect) : Act → Option Reconnect
  | .stop => if s.running then some { s with running := false } else none
  | .attempt a =>
      if !s.running then none else
        match connectAndServe a.course with
        | .shutdown => some { s with running := false }
        | .fatal => some { s with running := false }
        | .retry =>
            if a.stopped then some { s with running := false } else
              (cfg.backoffDelay (resumed cfg s.backoffExp a) a.jitter).map fun _ =>
                ⟨saturatingSucc (resumed cfg s.backoffExp a), !a.interrupted⟩

/-- A delay, the exponent it was drawn with, and the attempt before it. -/
structure BackingOff where
  attempt : Attempt
  exp : UInt32
  delay : UInt64
  deriving DecidableEq

/-- The delay that a step takes. -/
def backsOff (cfg : BackoffConfig) (s : Reconnect) : Act → Option BackingOff
  | .stop => none
  | .attempt a =>
      match connectAndServe a.course with
      | .retry =>
          if a.stopped then none else
            (cfg.backoffDelay (resumed cfg s.backoffExp a) a.jitter).map
              (⟨a, resumed cfg s.backoffExp a, ·⟩)
      | _ => none

/-- The exponent starts over only after a healthy session. -/
def ResetsHealthy (cfg : BackoffConfig) (log : List BackingOff) : Prop :=
  ∀ before r r' after, log = before ++ r :: r' :: after → r'.exp = 0 → r'.attempt.Healthy cfg

/-- Attempts in a row that never reach Online have exponents that grow by one. -/
def Grows (log : List BackingOff) : Prop :=
  ∀ part, part <:+: log → (∀ r ∈ part, ∀ shutdown, r.attempt.course ≠ .served shutdown) →
    part.IsChain fun r r' => r'.exp = saturatingSucc r.exp

/-- Within the configured ceiling are the delays, and all that could be drawn in their place. -/
structure Bounded (cfg : BackoffConfig) (log : List BackingOff) : Prop where
  taken : ∀ r ∈ log, 1 ≤ r.delay.toNat ∧ r.delay.toNat ≤ cfg.backoffMaxMs.toNat
  drawable : ∀ r ∈ log, ∀ jitter delay, cfg.backoffDelay r.exp jitter = some delay →
    1 ≤ delay.toNat ∧ delay.toNat ≤ cfg.backoffMaxMs.toNat

/-- How a delay's exponent follows from the one before. -/
def Follows (cfg : BackoffConfig) (r r' : BackingOff) : Prop :=
  r'.exp = if cfg.graceNs ≤ r'.attempt.elapsed then 0 else saturatingSucc r.exp

/-- The delays taken so far, and the exponent they leave. -/
structure Logged (cfg : BackoffConfig) (log : List BackingOff) (s : Reconnect) : Prop where
  chain : log.IsChain (Follows cfg)
  drawn : ∀ r ∈ log, cfg.backoffDelay r.exp r.attempt.jitter = some r.delay
  exponent : s.backoffExp = (log.getLast?.map fun r => saturatingSucc r.exp).getD 0

theorem start_logged (cfg : BackoffConfig) : Logged cfg [] start where
  chain := List.isChain_nil
  drawn := nofun
  exponent := rfl

theorem step_delay {cfg : BackoffConfig} {s u : Reconnect} {a : Act}
    (h : step cfg s a = some u) :
    (backsOff cfg s a = none ∧ u.backoffExp = s.backoffExp) ∨
    ∃ attempt delay, backsOff cfg s a = some ⟨attempt, resumed cfg s.backoffExp attempt, delay⟩ ∧
      cfg.backoffDelay (resumed cfg s.backoffExp attempt) attempt.jitter = some delay ∧
      u.backoffExp = saturatingSucc (resumed cfg s.backoffExp attempt) := by
  cases a with
  | stop =>
      simp only [step] at h
      split_ifs at h
      cases h
      exact Or.inl ⟨rfl, rfl⟩
  | attempt a =>
      cases hend : connectAndServe a.course with
      | retry =>
          simp only [step, hend] at h
          split_ifs at h with hrunning hstopped
          · cases h
            left
            simp [backsOff, hend, hstopped]
          · obtain ⟨delay, hdelay, rfl⟩ := Option.map_eq_some_iff.mp h
            right
            use a, delay
            simp [backsOff, hend, hstopped, hdelay]
      | fatal =>
          simp only [step, hend] at h
          split_ifs at h
          cases h
          left
          simp [backsOff, hend]
      | shutdown =>
          simp only [step, hend] at h
          split_ifs at h
          cases h
          left
          simp [backsOff, hend]

theorem step_logged {cfg : BackoffConfig} {log : List BackingOff} {s u : Reconnect} {a : Act}
    (h : Logged cfg log s) (hstep : step cfg s a = some u) :
    Logged cfg (log ++ (backsOff cfg s a).toList) u := by
  rcases step_delay hstep with ⟨hnone, hexp⟩ | ⟨attempt, delay, hsome, hdelay, hexp⟩
  · rw [hnone, Option.toList_none, List.append_nil]
    exact ⟨h.chain, h.drawn, hexp.trans h.exponent⟩
  · rw [hsome, Option.toList_some]
    constructor
    · refine List.isChain_append.mpr ⟨h.chain, List.isChain_singleton _, ?_⟩
      intro r hr r' hr'
      cases hr'
      have hlast := h.exponent
      rw [Option.mem_def.mp hr, Option.map_some, Option.getD_some] at hlast
      have hpos : 0 < s.backoffExp := by
        rw [hlast]
        exact UInt32.pos_iff_ne_zero.mpr (saturatingSucc_ne r.exp)
      simp only [Follows, resumed, hpos, and_true]
      rw [hlast]
    · intro r hr
      rcases List.mem_append.mp hr with hr | hr
      · exact h.drawn r hr
      · rw [List.mem_singleton.mp hr]
        exact hdelay
    · rw [hexp, List.getLast?_append, List.getLast?_singleton, Option.some_or, Option.map_some,
        Option.getD_some]

theorem run_logged {cfg : BackoffConfig} {s u : Reconnect} {l : List Act}
    (h : FreeRun (step cfg) s l u) {log : List BackingOff} (hs : Logged cfg log s) :
    Logged cfg (log ++ observed (step cfg) (backsOff cfg) s l) u := by
  induction h generalizing log with
  | nil s =>
      rw [observed, List.append_nil]
      exact hs
  | @cons s u v a l _ ht _ ih =>
      simp only [observed, ht, ← List.append_assoc]
      exact ih (step_logged hs ht)

/-- A log with a delay is bounded exactly if the configured ceiling is not below the floor. -/
theorem Logged.bounded_iff {cfg : BackoffConfig} {log : List BackingOff} {s : Reconnect}
    (h : Logged cfg log s) : Bounded cfg log ↔ (log ≠ [] → cfg.base ≤ cfg.backoffMaxMs) := by
  constructor
  · intro hbounded hne
    obtain ⟨r, hr⟩ := List.exists_mem_of_ne_nil log hne
    exact UInt64.le_iff_toNat_le.mpr
      (hbounded.drawable r hr _ _ (cfg.backoffDelay_base r.exp)).2
  · intro hceil
    have hdrawable : ∀ r ∈ log, ∀ jitter delay, cfg.backoffDelay r.exp jitter = some delay →
        1 ≤ delay.toNat ∧ delay.toNat ≤ cfg.backoffMaxMs.toNat :=
      fun r hr _ _ hdelay =>
        BackoffConfig.backoffDelay_bounds (hceil (List.ne_nil_of_mem hr)) hdelay
    exact ⟨fun r hr => hdrawable r hr _ _ (h.drawn r hr), hdrawable⟩

/-- Attempts after the first that last for the grace are healthy sessions. -/
def SlowHealthy (cfg : BackoffConfig) (log : List BackingOff) : Prop :=
  ∀ r ∈ log.tail, cfg.graceNs ≤ r.attempt.elapsed → r.attempt.Healthy cfg

theorem mem_tail_iff {log : List BackingOff} {r' : BackingOff} :
    r' ∈ log.tail ↔ ∃ before r after, log = before ++ r :: r' :: after := by
  constructor
  · intro hr'
    cases log with
    | nil => cases hr'
    | cons r₀ rest =>
        obtain ⟨before, after, rfl⟩ := List.append_of_mem hr'
        obtain ⟨init, r, hinit⟩ : ∃ init r, r₀ :: before = init ++ [r] :=
          ⟨_, _, (List.dropLast_append_getLast (List.cons_ne_nil r₀ before)).symm⟩
        use init, r, after
        rw [← List.cons_append, hinit]
        simp
  · rintro ⟨before, r, after, rfl⟩
    cases before with
    | nil => exact List.mem_cons_self
    | cons r₀ before => simp

/-- A quick attempt's delay has the exponent after the last one's. -/
theorem Follows.grows {cfg : BackoffConfig} {r r' : BackingOff} (h : Follows cfg r r')
    (hquick : ¬cfg.graceNs ≤ r'.attempt.elapsed) : r'.exp = saturatingSucc r.exp := by
  rw [h, if_neg hquick]

/-- In every run, the exponent starts over after healthy sessions alone, and grows by one
otherwise, and delays are at least one millisecond and at most the configured ceiling, exactly
if no attempt after the first takes the grace or more without a session that stays Online for
it and the ceiling is not below the floor. No number overflows on the way to a bound. -/
theorem backoff_exact (cfg : BackoffConfig) {l : List Act} {s : Reconnect}
    (h : FreeRun (step cfg) start l s) :
    (ResetsHealthy cfg (observed (step cfg) (backsOff cfg) start l) ∧
      Grows (observed (step cfg) (backsOff cfg) start l) ∧
      Bounded cfg (observed (step cfg) (backsOff cfg) start l) ∧
      ∀ exp, (cfg.bound exp).toNat = min (cfg.base.toNat * 2 ^ min exp.toNat 20) cfg.ceil.toNat) ↔
    SlowHealthy cfg (observed (step cfg) (backsOff cfg) start l) ∧
      (observed (step cfg) (backsOff cfg) start l ≠ [] → cfg.base ≤ cfg.backoffMaxMs) := by
  have hlogged := run_logged h (start_logged cfg)
  rw [List.nil_append] at hlogged
  constructor
  · rintro ⟨hresets, -, hbounded, -⟩
    refine ⟨fun r' hr' hslow => ?_, hlogged.bounded_iff.mp hbounded⟩
    obtain ⟨before, r, after, heq⟩ := mem_tail_iff.mp hr'
    have hchain := hlogged.chain
    rw [heq, List.isChain_append] at hchain
    have hfollows : Follows cfg r r' := (List.isChain_cons_cons.mp hchain.2.1).1
    apply hresets before r r' after heq
    rw [hfollows, if_pos hslow]
  · rintro ⟨hslow, hceil⟩
    refine ⟨?_, ?_, hlogged.bounded_iff.mpr hceil, cfg.bound_toNat⟩
    · intro before r r' after heq hzero
      have hchain := hlogged.chain
      rw [heq, List.isChain_append] at hchain
      have hfollows : Follows cfg r r' := (List.isChain_cons_cons.mp hchain.2.1).1
      apply hslow r' (mem_tail_iff.mpr ⟨before, r, after, heq⟩)
      by_contra hquick
      exact saturatingSucc_ne r.exp ((hfollows.grows hquick).symm.trans hzero)
    · intro part hpart hoffline
      apply ( List.IsChain.infix hlogged.chain hpart).imp_of_mem_tail_imp
      intro r r' _ hr' hfollows
      apply hfollows.grows
      intro hlasting
      obtain ⟨before, r₀, after, rfl⟩ := mem_tail_iff.mp hr'
      obtain ⟨left, right, heq⟩ := hpart
      have htail : r' ∈ (observed (step cfg) (backsOff cfg) start l).tail := by
        apply mem_tail_iff.mpr
        use left ++ before, r₀, after ++ right
        rw [← heq]
        simp
      obtain ⟨⟨shutdown, honline⟩, -⟩ := hslow r' htail hlasting
      exact hoffline r' (by simp) shutdown honline

/-- A connection attempt that times out. -/
def timedOut (seconds : ℕ) : Attempt :=
  ⟨.failed .tcp, 0, seconds * 1000000000, Nat.zero_le _, 400, false, false⟩

/-- Connections that are refused at once make the exponent grow. -/
theorem backoff_exact_refused :
    Grows (observed (step {}) (backsOff {}) start [.attempt (timedOut 0), .attempt (timedOut 0)]) ∧
      Bounded {} (observed (step {}) (backsOff {}) start
        [.attempt (timedOut 0), .attempt (timedOut 0)]) ∧
      observed (step {}) (backsOff {}) start [.attempt (timedOut 0), .attempt (timedOut 0)] =
        [⟨timedOut 0, 0, 400⟩, ⟨timedOut 0, 1, 400⟩] := by
  have hlog : observed (step {}) (backsOff {}) start
      [.attempt (timedOut 0), .attempt (timedOut 0)] =
        [⟨timedOut 0, 0, 400⟩, ⟨timedOut 0, 1, 400⟩] := by
    decide +kernel
  have hend : ∃ s ∈ execute (step {}) (fun _ _ => True) start
      [.attempt (timedOut 0), .attempt (timedOut 0)], s.backoffExp = 2 := by
    decide +kernel
  obtain ⟨s, hs, -⟩ := hend
  have hslow : SlowHealthy {} (observed (step {}) (backsOff {}) start
      [.attempt (timedOut 0), .attempt (timedOut 0)]) := by
    rw [SlowHealthy, hlog]
    intro r hr hslow
    rw [List.tail_cons, List.mem_singleton] at hr
    rw [hr] at hslow
    exact absurd hslow (by decide +kernel)
  obtain ⟨-, hgrows, hbounded, -⟩ :=
    (backoff_exact {} (run_of_execute hs)).mpr ⟨hslow, fun _ => by decide +kernel⟩
  exact ⟨hgrows, hbounded, hlog⟩

/-- The exponent starts over although no attempt ever reached Online. -/
theorem timedOut_resets :
    ¬∀ (cfg : BackoffConfig) (l : List Act) (s : Reconnect), FreeRun (step cfg) start l s →
      ResetsHealthy cfg (observed (step cfg) (backsOff cfg) start l) ∧
        Grows (observed (step cfg) (backsOff cfg) start l) := by
  intro h
  have hlog : observed (step {}) (backsOff {}) start
      [.attempt (timedOut 30), .attempt (timedOut 30)] =
        [] ++ ⟨timedOut 30, 0, 400⟩ :: ⟨timedOut 30, 0, 400⟩ :: [] := by
    decide +kernel
  have hend : ∃ s ∈ execute (step {}) (fun _ _ => True) start
      [.attempt (timedOut 30), .attempt (timedOut 30)], s.backoffExp = 1 := by
    decide +kernel
  obtain ⟨s, hs, -⟩ := hend
  obtain ⟨hresets, -⟩ := h {} _ s (run_of_execute hs)
  obtain ⟨⟨shutdown, honline⟩, -⟩ := hresets _ _ _ _ hlog rfl
  cases honline

end Reconnect
end Aegis

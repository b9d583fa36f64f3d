import Aegis.SequentialReplay
import Aegis.SynthRng
import Aegis.FeatureRanges

/-!
# Synthetic sessions

`synth.rs`: sessions sampled from a profile, command by command, with think times
that follow an autoregressive process around a drifting mean. Every sampled
session has at least three commands of at least twelve keystrokes each, so it
always has enough evidence for a vector.
-/

namespace Aegis
variable {F : Type}

namespace SynthEvent

/-- The keystrokes that an event counts. -/
def keys : SynthEvent F → ℕ
  | .keystroke _ _ burstLen => max burstLen.toNat 1
  | .command _ _ _ => 0

def isCommand : SynthEvent F → Bool
  | .keystroke _ _ _ => false
  | .command _ _ _ => true

end SynthEvent

namespace Eval

structure ProfileParams (F : Type) where
  keystrokeLognormal : F × F
  thinkLognormal : F × F
  backspaceP : F
  pasteP : F
  entropy : F × F
  commands : F × F
  keystrokesPerCmd : F × F
  thinkAutocorr : F
  thinkFatigue : F

/-- The functions of `std` that only the sampling uses. -/
structure Sampling (F : Type) where
  cos : F → F
  round : F → F

variable [F64 F]

namespace ProfileParams

def human : ProfileParams F where
  keystrokeLognormal := (F64.lit 5, F64.lit (55 / 100))
  thinkLognormal := (F64.lit 8, F64.lit (85 / 100))
  backspaceP := F64.lit (30 / 100)
  pasteP := F64.lit (2 / 100)
  entropy := (F64.lit (36 / 10), F64.lit (3 / 10))
  commands := (F64.lit 8, F64.lit 2)
  keystrokesPerCmd := (F64.lit 24, F64.lit 6)
  thinkAutocorr := F64.lit (45 / 100)
  thinkFatigue := F64.lit (1 / 2)

def agent : ProfileParams F where
  keystrokeLognormal := (F64.lit (29 / 10), F64.lit (12 / 100))
  thinkLognormal := (F64.lit (39 / 10), F64.lit (25 / 100))
  backspaceP := F64.lit (3 / 100)
  pasteP := F64.lit (1 / 2)
  entropy := (F64.lit (47 / 10), F64.lit (2 / 10))
  commands := (F64.lit 10, F64.lit 3)
  keystrokesPerCmd := (F64.lit 28, F64.lit 8)
  thinkAutocorr := F64.lit 0
  thinkFatigue := F64.lit 0

end ProfileParams

/-- A double as an unsigned integer: truncated and saturating, zero if missing. -/
def castTo (bound : ℕ) (x : F) : ℕ := if F64.lt (F64.lit 0) x then min (F64.floor x) bound else 0

def castU64 (x : F) : UInt64 := .ofNat (castTo (2 ^ 64 - 1) x)

def castU32 (x : F) : ℕ := castTo (2 ^ 32 - 1) x

namespace Rng
variable (fns : Sampling F)

def tau : F := F64.lit (628318530717958647692528676655900577 / 10 ^ 35)

/-- A normal draw by the transformation of two uniform ones. -/
def normal (rng : Rng) (mean std : F) : F × Rng :=
  let (u1, rng) : F × Rng := rng.uniform
  let u1 := F64.max u1 (F64.lit (1 / 10 ^ 12))
  let (u2, rng) : F × Rng := rng.uniform
  let z := F64.sqrt (F64.lit (-2) * F64.ln u1) * fns.cos (tau * u2)
  (mean + std * z, rng)

def lognormal (rng : Rng) (mu sigma : F) : F × Rng :=
  let (x, rng) := rng.normal fns mu sigma
  (F64.exp x, rng)

/-- A count of at least `least`. -/
def count (rng : Rng) (mean std : F) (least : ℕ) : ℕ × Rng :=
  let (x, rng) := rng.normal fns mean std
  (castU32 (F64.max (fns.round x) (F64.ofNat least)), rng)

end Rng

section Session
variable (fns : Sampling F) (params : ProfileParams F)

def milliNs (ms : F) : UInt64 := castU64 (ms * F64.lit 1000000)

def typedStep (s : List (SynthEvent F) × Rng) (_ : ℕ) : List (SynthEvent F) × Rng :=
  let (gapMs, rng) := s.2.lognormal fns params.keystrokeLognormal.1 params.keystrokeLognormal.2
  let gapMs := F64.clamp gapMs (F64.lit 1) (F64.lit 5000)
  (s.1 ++ [.keystroke (milliNs gapMs) false 1], rng)

/-- The keystrokes of a line, as one paste or one by one. -/
def lineEvents (isPaste : Bool) (cmdLen : ℕ) (rng : Rng) : List (SynthEvent F) × Rng :=
  if isPaste then
    let (gapMs, rng) := rng.lognormal fns (F64.min params.keystrokeLognormal.1 (F64.lit 3))
      (F64.lit (2 / 10))
    ([.keystroke (milliNs gapMs) true (.ofNat cmdLen)], rng)
  else (List.range cmdLen).foldl (typedStep fns params) ([], rng)

/-- The loop variables of a session. -/
structure Sampled (F : Type) where
  events : List (SynthEvent F)
  rng : Rng
  prevDev : F
  havePrev : Bool

def commandStep (nCommands : ℕ) (s : Sampled F) (cmdI : ℕ) : Sampled F :=
  let (isPaste, rng) := s.rng.bernoulli params.pasteP
  let (cmdLen, rng) := rng.count fns params.keystrokesPerCmd.1 params.keystrokesPerCmd.2 12
  let (line, rng) := lineEvents fns params isPaste cmdLen rng
  let frac := if 1 < nCommands then F64.ofNat cmdI / F64.ofNat (nCommands - 1) else F64.lit 0
  let muT := params.thinkLognormal.1 + params.thinkFatigue * frac
  let phi := F64.clamp params.thinkAutocorr (F64.lit 0) (F64.lit (99 / 100))
  let innovScale := F64.sqrt (F64.lit 1 - phi * phi)
  let (eps, rng) := rng.normal fns (F64.lit 0) params.thinkLognormal.2
  let dev := if s.havePrev then phi * s.prevDev + innovScale * eps else eps
  let thinkMs := F64.clamp (F64.exp (muT + dev)) (F64.lit 1) (F64.lit 600000)
  let (hadBackspace, rng) := rng.bernoulli params.backspaceP
  let (entropy, rng) := rng.normal fns params.entropy.1 params.entropy.2
  { events := s.events ++ line ++
      [.command (milliNs thinkMs) hadBackspace (F64.clamp entropy (F64.lit 0) (F64.lit 8))]
    rng := rng
    prevDev := dev
    havePrev := true }

def synthEvents (rng : Rng) (minCommands : ℕ) : List (SynthEvent F) × Rng :=
  let (nCommands, rng) := rng.count fns
    (F64.max params.commands.1 (F64.ofNat minCommands)) params.commands.2 (max minCommands 3)
  let s := (List.range nCommands).foldl (commandStep fns params nCommands)
    ⟨[], rng, F64.lit 0, false⟩
  (s.events, s.rng)

def synthSession (rng : Rng) : SessionAccumulator F × Rng :=
  let (events, rng) := synthEvents fns params rng 0
  (events.foldl SynthEvent.apply {}, rng)

end Session

theorem foldl_apply_counters (events : List (SynthEvent F)) (acc : SessionAccumulator F) :
    (events.foldl SynthEvent.apply acc).keystrokes =
        acc.keystrokes + (events.map SynthEvent.keys).sum ∧
      (events.foldl SynthEvent.apply acc).commands =
        acc.commands + events.countP SynthEvent.isCommand := by
  induction events generalizing acc with
  | nil => exact ⟨rfl, rfl⟩
  | cons e events ih =>
      obtain ⟨hkeys, hcommands⟩ := ih (e.apply acc)
      rw [List.foldl_cons, hkeys, hcommands, List.map_cons, List.sum_cons, List.countP_cons]
      cases e with
      | keystroke ns isPaste burstLen =>
          constructor
          · exact Nat.add_assoc _ _ _
          · exact congrArg (acc.commands + ·) (Nat.add_zero _).symm
      | command ns hadBackspace entropy =>
          constructor
          · exact congrArg (acc.keystrokes + ·) (Nat.zero_add _).symm
          · exact Nat.add_right_comm _ _ _

section Evidence
variable {K : Type} [Field K] [LinearOrder K] [IsStrictOrderedRing K]
variable (E : ExactStatistics F K) (fns : Sampling F) (params : ProfileParams F)
include E

/-- A cast after `f64::max` is at least the whole number it was compared with. -/
theorem le_castTo_max {least bound : ℕ} (hpos : 0 < least) (hbound : least ≤ bound) (x : F) :
    least ≤ castTo bound (F64.max x (F64.ofNat least)) := by
  have hcast : ∀ a : K, (least : K) ≤ a → least ≤ castTo bound (E.num a) := by
    intro a ha
    have hposa : 0 < a := (Nat.cast_pos.mpr hpos).trans_le ha
    have hlt : (least : K) < F64.floor (E.num a) + 1 :=
      ha.trans_lt (E.brackets hposa.le).lt_lo
    have hfloor : least < F64.floor (E.num a) + 1 := by exact_mod_cast hlt
    rw [castTo, E.zero, if_pos ((E.lt 0 a).mpr hposa)]
    exact le_min (Nat.le_of_lt_succ hfloor) hbound
  rw [E.ofNat]
  cases hx : JsonFloat.finite x with
  | false =>
      have hnan : F64.isNaN x = true := by
        rw [F64.isNaN, (E.compare_missing (Or.inl hx)).2]
        rfl
      rw [F64.max, if_pos hnan]
      exact hcast least le_rfl
  | true =>
      obtain ⟨a, rfl⟩ := E.number hx
      rw [E.max_num]
      exact hcast _ (le_max_right a least)

theorem le_count {least : ℕ} (hpos : 0 < least) (hbound : least < 2 ^ 32) (rng : Rng)
    (mean std : F) : least ≤ (rng.count fns mean std least).1 :=
  le_castTo_max E hpos (by omega) _

omit E in
theorem count_le (rng : Rng) (mean std : F) (least : ℕ) :
    (rng.count fns mean std least).1 < 2 ^ 32 := by
  have hcast : ∀ x : F, castU32 x ≤ 2 ^ 32 - 1 := by
    intro x
    rw [castU32, castTo]
    split_ifs
    · exact min_le_right _ _
    · exact Nat.zero_le _
  have hle := hcast (F64.max (fns.round (rng.normal fns mean std).1) (F64.ofNat least))
  have hcount : (rng.count fns mean std least).1 =
      castU32 (F64.max (fns.round (rng.normal fns mean std).1) (F64.ofNat least)) := rfl
  omega

omit E in
theorem typedStep_counts (rng : Rng) (n : ℕ) :
    (((List.range n).foldl (typedStep fns params) ([], rng)).1.map SynthEvent.keys).sum = n ∧
      ((List.range n).foldl (typedStep fns params) ([], rng)).1.countP SynthEvent.isCommand =
        0 := by
  induction n with
  | zero => exact ⟨rfl, rfl⟩
  | succ n ih =>
      rw [List.range_succ, List.foldl_append, List.foldl_cons, List.foldl_nil, typedStep]
      rw [List.map_append, List.sum_append, List.countP_append, ih.1, ih.2]
      exact ⟨rfl, rfl⟩

omit E in
theorem lineEvents_counts (isPaste : Bool) {cmdLen : ℕ} (hpos : 0 < cmdLen)
    (hlt : cmdLen < 2 ^ 32) (rng : Rng) :
    ((lineEvents fns params isPaste cmdLen rng).1.map SynthEvent.keys).sum = cmdLen ∧
      (lineEvents fns params isPaste cmdLen rng).1.countP SynthEvent.isCommand = 0 := by
  cases isPaste with
  | false => exact typedStep_counts fns params rng cmdLen
  | true =>
      have hburst : (UInt32.ofNat cmdLen).toNat = cmdLen := UInt32.toNat_ofNat_of_lt' hlt
      have hkeys : ((lineEvents fns params true cmdLen rng).1.map SynthEvent.keys).sum =
          max (UInt32.ofNat cmdLen).toNat 1 := rfl
      refine ⟨?_, rfl⟩
      rw [hkeys, hburst, max_eq_left hpos]

theorem commandStep_counts (nCommands : ℕ) (s : Sampled F) (cmdI : ℕ) :
    (s.events.map SynthEvent.keys).sum + 12 ≤
        ((commandStep fns params nCommands s cmdI).events.map SynthEvent.keys).sum ∧
      (commandStep fns params nCommands s cmdI).events.countP SynthEvent.isCommand =
        s.events.countP SynthEvent.isCommand + 1 := by
  obtain ⟨cmdLen, hcmdLen⟩ : ∃ cmdLen, cmdLen = (((s.rng.bernoulli params.pasteP).2.count fns
      params.keystrokesPerCmd.1 params.keystrokesPerCmd.2 12).1) := ⟨_, rfl⟩
  have hlong : 12 ≤ cmdLen := hcmdLen ▸ le_count E fns (by norm_num) (by norm_num) _ _ _
  have hlt : cmdLen < 2 ^ 32 := hcmdLen ▸ count_le fns _ _ _ _
  obtain ⟨hkeys, hnone⟩ := lineEvents_counts fns params (s.rng.bernoulli params.pasteP).1
    (by omega) hlt ((s.rng.bernoulli params.pasteP).2.count fns params.keystrokesPerCmd.1
      params.keystrokesPerCmd.2 12).2
  rw [commandStep]
  dsimp only
  rw [← hcmdLen]
  constructor
  · rw [List.map_append, List.map_append, List.sum_append, List.sum_append, hkeys]
    simp only [List.map_cons, List.map_nil, SynthEvent.keys, List.sum_cons, List.sum_nil]
    omega
  · rw [List.countP_append, List.countP_append, hnone]
    rfl

theorem commandSteps_counts (nCommands : ℕ) (start : Sampled F) (n : ℕ) :
    (start.events.map SynthEvent.keys).sum + 12 * n ≤
        (((List.range n).foldl (commandStep fns params nCommands) start).events.map
          SynthEvent.keys).sum ∧
      ((List.range n).foldl (commandStep fns params nCommands) start).events.countP
        SynthEvent.isCommand = start.events.countP SynthEvent.isCommand + n := by
  induction n with
  | zero => exact ⟨le_rfl, rfl⟩
  | succ n ih =>
      rw [List.range_succ, List.foldl_append, List.foldl_cons, List.foldl_nil]
      have hstep := commandStep_counts E fns params nCommands
        ((List.range n).foldl (commandStep fns params nCommands) start) n
      omega

/-- A session has the commands it was to have, at least three, and enough evidence. -/
theorem synthSession_evidence (rng : Rng) :
    (synthSession fns params rng).1.enoughEvidence = true := by
  obtain ⟨nCommands, hn⟩ : ∃ nCommands, nCommands = (rng.count fns
      (F64.max params.commands.1 (F64.ofNat 0)) params.commands.2 (max 0 3)).1 := ⟨_, rfl⟩
  have hthree : 3 ≤ nCommands := hn ▸ le_count E fns (by norm_num) (by norm_num) _ _ _
  obtain ⟨start, hstart⟩ : ∃ start : Sampled F, start = ⟨[], (rng.count fns
      (F64.max params.commands.1 (F64.ofNat 0)) params.commands.2 (max 0 3)).2, F64.lit 0,
        false⟩ := ⟨_, rfl⟩
  have hsession : (synthSession fns params rng).1 = ((List.range nCommands).foldl
      (commandStep fns params nCommands) start).events.foldl SynthEvent.apply {} := by
    rw [hstart, hn]
    rfl
  obtain ⟨hkeys, hcommands⟩ := commandSteps_counts E fns params nCommands start nCommands
  have hfold := foldl_apply_counters ((List.range nCommands).foldl
    (commandStep fns params nCommands) start).events ({} : SessionAccumulator F)
  have hkeystrokes : minKeystrokes ≤ (synthSession fns params rng).1.keystrokes := by
    rw [hsession, hfold.1, minKeystrokes]
    omega
  have henough : minCommands ≤ (synthSession fns params rng).1.commands := by
    rw [hsession, hfold.2, minCommands, hcommands]
    omega
  rw [SessionAccumulator.enoughEvidence, decide_eq_true hkeystrokes, decide_eq_true henough]
  rfl

end Evidence
end Eval
end Aegis

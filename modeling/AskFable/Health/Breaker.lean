import AskFable.General.Window
import AskFable.Python.Text
import Mathlib.Algebra.Order.Ring.Rat
import Mathlib.Data.Rat.Cast.Order
import Mathlib.Order.WithBot

/-!
# The circuit breaker

Per oracle the last outcomes, the time the breaker tripped, and a hold set by a spent quota.
The settings are read at every call, so they may be others each time. Times are rationals; what
the floats make of a quotient, a sum or a product is left to `Floats`.
-/
namespace AskFable.Health
open AskFable.Text

/-- The float operations, of which only that a whole is 1 is used. -/
class Floats where
  quot : ℕ → ℕ → ℚ
  add : ℚ → ℚ → ℚ
  sub : ℚ → ℚ → ℚ
  mul : ℚ → ℚ → ℚ
  round : ℚ → ℕ → ℚ
  quot_self : ∀ n, 0 < n → quot n n = 1

/-- Operations without rounding. -/
@[reducible] def Floats.exact : Floats where
  quot m n := m / n
  add := (· + ·)
  sub := (· - ·)
  mul := (· * ·)
  round x _ := x
  quot_self n hn := div_self (by exact_mod_cast Nat.pos_iff_ne_zero.mp hn)

/-- A number of seconds, which a setting may make infinite. -/
abbrev Seconds := WithTop ℚ

/-- What `float` reads from a text. -/
inductive FloatText
  | nan
  | negInf
  | posInf
  | fin (q : ℚ)

/-- `max(low, x)`; a NaN is not above `low`. -/
def FloatText.atLeast (low : ℚ) : FloatText → Seconds
  | nan => low
  | negInf => low
  | posInf => ⊤
  | fin q => (max low q : ℚ)

/-- `min(high, x)`, then `max(low, x)`. -/
def FloatText.between (low high : ℚ) : FloatText → ℚ
  | nan => max low high
  | negInf => low
  | posInf => max low high
  | fin q => max low (min high q)

/-- The variables, and the texts `int` and `float` read; `none` is a `ValueError`. -/
structure Environ where
  get : Str → Option Str
  int : Str → Option ℤ
  float : Str → Option FloatText

/-- `os.environ.get(name) or default`. -/
def Environ.text (e : Environ) (name default : Str) : Str :=
  match e.get name with
  | none => default
  | some text => if text = [] then default else text

/-- The settings, within the bounds that their readers keep. -/
structure Settings where
  enabled : Bool
  window : ℕ
  threshold : ℚ
  cooldown : Seconds
  quotaHold : Seconds
  window_pos : 1 ≤ window
  threshold_le : threshold ≤ 1
  cooldown_ge : 1 ≤ cooldown
  quotaHold_ge : 0 ≤ quotaHold

namespace Environ

variable (e : Environ)

/-- `_enabled`. -/
def enabled : Bool :=
  (strip (e.text (txt "ASK_FABLE_CIRCUIT_BREAKER") (txt "1"))).map lowerAscii ∉
    [txt "0", txt "false", txt "no", txt "off"]

/-- `_window`. -/
def window : ℕ :=
  match e.get (txt "ASK_FABLE_BREAKER_WINDOW") with
  | none => 20
  | some text =>
    if text = [] then 20
    else match e.int text with
      | some n => (max 1 n).toNat
      | none => 20

/-- A float setting: what cannot be read, or is not there, is the default. -/
def setting (name : Str) (default : FloatText) : FloatText :=
  match e.get name with
  | none => default
  | some text => if text = [] then default else (e.float text).getD default

/-- The float 0.1. -/
def TENTH : ℚ := 3602879701896397 / 2 ^ 55

/-- `_threshold`. -/
def threshold : ℚ :=
  (e.setting (txt "ASK_FABLE_BREAKER_THRESHOLD") (.fin (1 / 2))).between TENTH 1

/-- `_cooldown`. -/
def cooldown : Seconds := (e.setting (txt "ASK_FABLE_BREAKER_COOLDOWN") (.fin 300)).atLeast 1

/-- `_quota_hold`. -/
def quotaHold : Seconds := (e.setting (txt "ASK_FABLE_QUOTA_HOLD") (.fin 0)).atLeast 0

end Environ

theorem FloatText.le_atLeast (low : ℚ) (x : FloatText) : (low : Seconds) ≤ x.atLeast low := by
  cases x with
  | posInf => exact le_top
  | fin q => exact WithTop.coe_le_coe.mpr (le_max_left low q)
  | _ => exact le_rfl

theorem FloatText.between_le {low high : ℚ} (h : low ≤ high) (x : FloatText) :
    x.between low high ≤ high := by
  cases x with
  | negInf => exact h
  | fin q => exact max_le h (min_le_left high q)
  | _ => exact max_le h le_rfl

/-- What a call reads. -/
def Environ.settings (e : Environ) : Settings where
  enabled := e.enabled
  window := e.window
  threshold := e.threshold
  cooldown := e.cooldown
  quotaHold := e.quotaHold
  window_pos := by
    unfold Environ.window
    split
    · omega
    · split_ifs
      · omega
      · split <;> omega
  threshold_le := FloatText.between_le (by decide +kernel) _
  cooldown_ge := FloatText.le_atLeast 1 _
  quotaHold_ge := FloatText.le_atLeast 0 _

/-! ### State -/

def QUOTA_HOLD_MAX : ℚ := 3600

def MIN_SAMPLES : ℕ := 5

def NON_HEALTH_KINDS : List Str :=
  [txt "not_configured", txt "unknown_oracle", txt "auth_failed", txt "circuit_open",
    txt "model_unavailable", txt "model_too_large", txt "payment_required",
    txt "budget_exhausted", txt "context_too_large", txt "bad_input", txt "binary_missing",
    txt "sdk_unavailable", txt "transport_incapable", txt "disabled", txt "bad_args",
    txt "model_not_found", txt "context_too_small", txt "busy"]

/-- `_State`. -/
structure OracleState where
  outcomes : List Bool
  openedAt : ℚ
  heldUntil : ℚ
  holdStep : ℕ
  deriving DecidableEq

def OracleState.fresh : OracleState := ⟨[], 0, 0, 0⟩

inductive Change
  | opened
  | reopened
  | closed
  deriving DecidableEq, Repr

structure Transition where
  key : Str
  change : Change
  probe : Bool
  errorRate : ℚ
  samples : ℕ
  window : ℕ
  cooldown : Seconds

/-- The readings of the clock during one call, and the jitter it draws. -/
structure Tick where
  first : ℚ
  second : ℚ
  jitter : ℚ

abbrev Breaker := Str → Option OracleState

def Breaker.set (b : Breaker) (key : Str) (s : OracleState) : Breaker := fun k =>
  if k = key then some s else b k

section
variable [Floats]

/-- `time.monotonic() - s.opened_at >= _cooldown()`. -/
def OracleState.cooled (s : OracleState) (cfg : Settings) (now : ℚ) : Bool :=
  cfg.cooldown ≤ (Floats.sub now s.openedAt : ℚ)

/-- `2 ** (step - 1)` as a float; `none` is `OverflowError`. -/
def doubled (step : ℕ) : Option ℚ := if 1024 < step then none else some (2 ^ ((step : ℤ) - 1))

/-- A `rate_limit` with the hold switched on. `none` is the `OverflowError`, which leaves the
step counted. -/
def OracleState.hold (s : OracleState) (base : Seconds) (t : Tick) :
    OracleState × Option (Option Transition) :=
  let step := if s.heldUntil ≤ t.first then s.holdStep + 1 else s.holdStep
  match doubled step with
  | none => (⟨s.outcomes, s.openedAt, s.heldUntil, step⟩, none)
  | some power =>
    let capped :=
      match base with
      | none => QUOTA_HOLD_MAX
      | some base => min (Floats.mul base power) QUOTA_HOLD_MAX
    let hold := Floats.mul capped (Floats.add 1 t.jitter)
    (⟨s.outcomes, s.openedAt, max s.heldUntil (Floats.add t.first hold), step⟩, some none)

/-- `_transition`. -/
def transition (key : Str) (change : Change) (outcomes : List Bool) (cfg : Settings) (probe : Bool) :
    Transition :=
  ⟨key, change, probe,
    if outcomes = [] then 0 else Floats.round (Floats.quot (outcomes.count true) outcomes.length) 3,
    outcomes.length, cfg.window, cfg.cooldown⟩

/-- An outcome that goes into the window. -/
def OracleState.take (s : OracleState) (cfg : Settings) (key : Str) (isError : Bool) (t : Tick) :
    OracleState × Option Transition :=
  let outcomes := Window.push cfg.window s.outcomes isError
  let wasOpen := s.openedAt != 0
  let probing := wasOpen && s.cooled cfg t.first
  if isError = false then
    if wasOpen = true then
      (⟨[false], 0, 0, 0⟩, some (transition key .closed [false] cfg probing))
    else (⟨outcomes, 0, 0, 0⟩, none)
  else if cfg.enabled = true ∧ MIN_SAMPLES ≤ outcomes.length ∧
      cfg.threshold ≤ Floats.quot (outcomes.count true) outcomes.length then
    (⟨outcomes, t.second, s.heldUntil, s.holdStep⟩,
      if wasOpen = false then some (transition key .opened outcomes cfg false)
      else if probing = true then some (transition key .reopened outcomes cfg true)
      else none)
  else (⟨outcomes, s.openedAt, s.heldUntil, s.holdStep⟩, none)

/-- An error that says nothing about the backend's health. -/
def isIgnored (status kind : Str) : Bool := status = txt "error" ∧ kind ∈ NON_HEALTH_KINDS

/-- An error that only holds the oracle back. -/
def isHold (cfg : Settings) (status kind : Str) : Bool :=
  status = txt "error" ∧ kind = txt "rate_limit" ∧ 0 < cfg.quotaHold

/-- `Breaker.record`; `none` is an exception. -/
def Breaker.record (cfg : Settings) (b : Breaker) (key status kind : Str) (t : Tick) :
    Breaker × Option (Option Transition) :=
  if isIgnored status kind then (b, some none)
  else
    let s := (b key).getD .fresh
    if isHold cfg status kind then
      let (s, result) := s.hold cfg.quotaHold t
      (b.set key s, result)
    else
      let (s, change) := s.take cfg key (status = txt "error") t
      (b.set key s, some (if cfg.enabled then change else none))

/-- `Breaker.reset`. -/
def Breaker.reset (b : Breaker) (key : Str) : Breaker := fun k => if k = key then none else b k

/-! ### The gate -/

inductive GateState
  | closed
  | halfOpen
  | «open»
  deriving DecidableEq, Repr

inductive SkipReason
  | circuitOpen
  | quotaHold
  deriving DecidableEq, Repr

/-- `Breaker.state`. -/
def Breaker.state (cfg : Settings) (b : Breaker) (key : Str) (now : ℚ) : GateState :=
  if cfg.enabled = false then .closed
  else
    match b key with
    | none => .closed
    | some s =>
      if s.openedAt = 0 then .closed
      else if s.cooled cfg now then .halfOpen
      else .open

/-- `Breaker.should_skip`. -/
def Breaker.shouldSkip (cfg : Settings) (b : Breaker) (key : Str) (now : ℚ) : Bool :=
  if b.state cfg key now = .open then true
  else if cfg.quotaHold ≤ 0 then false
  else
    match b key with
    | none => false
    | some s => now < s.heldUntil

structure Snapshot where
  state : GateState
  skipReason : Option SkipReason
  resumeInS : Option Seconds
  heldUntil : ℚ
  holdStep : ℕ
  window : ℕ

/-- `max(0.0, cooldown - elapsed)`. -/
def remaining (cooldown : Seconds) (elapsed : ℚ) : Seconds :=
  match cooldown with
  | none => ⊤
  | some cooldown => (max 0 (Floats.sub cooldown elapsed) : ℚ)

/-- `Breaker.snapshot`. -/
def Breaker.snapshot (cfg : Settings) (b : Breaker) (key : Str) (now : ℚ) : Snapshot :=
  match b key with
  | none => ⟨.closed, none, none, 0, 0, 0⟩
  | some s =>
    let state : GateState :=
      if cfg.enabled = false ∨ s.openedAt = 0 then .closed
      else if s.cooled cfg now then .halfOpen
      else .open
    let held : Bool := now < s.heldUntil
    let skipReason : Option SkipReason :=
      if state = .open then some .circuitOpen else if held then some .quotaHold else none
    let resume : Option Seconds :=
      if state = .open then some (remaining cfg.cooldown (Floats.sub now s.openedAt)) else none
    let resume : Option Seconds :=
      if held then
        let hold : Seconds := (Floats.sub s.heldUntil now : ℚ)
        some (resume.elim hold fun r => max r hold)
      else resume
    ⟨state, skipReason, resume.map fun r => WithTop.map (Floats.round · 1) r, s.heldUntil,
      s.holdStep, s.outcomes.length⟩

end

end AskFable.Health

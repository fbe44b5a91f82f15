import AskFable.Caching.Fresh
import AskFable.Caching.Keys
import AskFable.Council.Signals
import AskFable.Health.Runs
import AskFable.Trace.Runtime

/-!
# Calls of the oracles

`run` and `run_bounded`, with the answer cache, the circuit breaker and the telemetry they go
through. Any number of calls are under way in any number of processes, which share the file of the
cache; a process has its own breaker. A call may be answered, fail or be cancelled wherever it
waits, and the others go on in between.
-/
namespace AskFable.Oracle
open AskFable.Text AskFable.Python AskFable.Debate AskFable.Trace AskFable.Health AskFable.Caching

/-- The keys of `_ANTHROPIC_BRIDGES`. -/
def ANTHROPIC : List Str :=
  [txt "fable", txt "fable51", txt "opus", txt "opus55", txt "opus5", txt "opus48", txt "sonnet"]

structure OracleResult extends Council.OracleResult where
  returncode : Option ℤ
  telemetry : Option ProviderTelemetry

def statusText : Status → Str
  | .ok => txt "ok"
  | .refused => txt "refused"
  | .error => txt "error"

/-! ### Telemetry -/

/-- A time in milliseconds, as `repr` shows it. -/
abbrev Millis := { s : Str // s ∉ JsonText.NON_FINITE }

def noTime : Millis := ⟨txt "0.0", by decide⟩

/-- The telemetry with the fields that the layer itself fills in. -/
def reported (key : Str) (requested actual : Option Str) (transport : Str) (returncode : Option ℤ)
    (wall : Millis) (reasoning usage tools : Option Bool) : ProviderTelemetry where
  oracleKey := key
  requestedModel := requested
  actualModel := actual
  transport := some transport
  providerRequestId := none
  providerSessionId := none
  stopReason := none
  returncode
  httpStatus := none
  retryCount := 0
  wallDurationMs := some wall.1
  providerDurationMs := none
  apiDurationMs := none
  reasoningAvailable := reasoning
  usageAvailable := usage
  toolsAvailable := tools
  unknownEventCount := 0
  unknownEventFingerprints := []
  usage := none
  toolEvents := []
  finite s hs := by
    rw [← Option.some.inj hs]
    exact wall.2

/-- `x or y`. -/
def orText (x y : Str) : Str := if x = [] then y else x

/-- `x or None`. -/
def orNone (x : Str) : Option Str := if x = [] then none else some x

/-- `OracleResult.__post_init__`. -/
def OracleResult.made (r : OracleResult) : OracleResult :=
  if r.status = .error ∧ r.telemetry = none then
    let identity := orText r.key (orText r.model (txt "unknown"))
    { r with telemetry := some (reported identity (orNone r.model) (orNone r.model) (txt "error")
        r.returncode noTime (some false) (some false) (some false)) }
  else r

/-- `placeholder_telemetry`. -/
def OracleResult.placeholder (r : OracleResult) : Bool :=
  r.telemetry.all fun t => t.transport = some (txt "error")

/-- The telemetry of a result, or what takes a placeholder's place. -/
def OracleResult.filled (r : OracleResult) (fallback : ProviderTelemetry) : ProviderTelemetry :=
  if r.placeholder then fallback else r.telemetry.getD fallback

/-- `fallback_telemetry`. -/
def fallbackTelemetry (key requestedModel : Str) (wall : Millis) (actualModel : Str)
    (returncode : Option ℤ) (thinking transport : Str) : ProviderTelemetry :=
  reported key (some requestedModel) (some (orText actualModel requestedModel))
    (orText transport (if key ∈ ANTHROPIC then txt "sdk" else txt "bridge")) returncode wall
    (some (thinking ≠ [])) (if key = txt "gemini" then none else some false)
    (if key = txt "codex" then some true
      else if key = txt "grok" ∨ key = txt "kimi" then some false
      else if key = txt "gemini" then none
      else some false)

/-- What `trace.provider` is called with. -/
structure Report where
  telemetry : ProviderTelemetry
  status : Status
  thinking : Str
  kind : Str
  answer : Option Str

/-- `record_provider` where a trace is current: what is reported to it. -/
def recordProvider (telemetry : ProviderTelemetry) (status : Status) (thinking kind : Str)
    (answer : Option Str) : Option Report :=
  if telemetry.transport = some (txt "cache") then none
  else some ⟨telemetry, status, thinking, kind, answer⟩

/-- `_record_unfinished`. -/
def recordUnfinished (key requested : Str) (wall : Millis) (kind transport : Str) : Option Report :=
  recordProvider (fallbackTelemetry key requested wall [] none [] transport) .error [] kind none

/-! ### The state -/

/-- The arguments of `run`, and the process and the trace it runs in. -/
structure Ask where
  process : ℕ
  key : Str
  question : Str
  context : Str
  effort : Option Str
  model : Option Str
  traced : Bool
  traceId : Option Str

/-- The payload that is cached. -/
structure Stored where
  status : Status
  text : Str
  kind : Str
  model : Str
  thinking : Str
  originTraceId : Option Str

/-- How a call ends: with a result of the layer itself, a cached one or one of the backend; with
the backend's exception; cancelled at the backend; or cancelled before its turn. -/
inductive Outcome
  | disabled (r : OracleResult)
  | hit (requested : Str) (lookup : Lookup) (payload : Stored) (age : ℕ) (r : OracleResult)
  | shed (r : OracleResult)
  | answered (requested : Str) (lookup : Option Lookup) (r : OracleResult)
  | failed
  | cancelled
  | dropped

/-- A call waits for its turn, or for its backend: then with the model it asks for and what it
looked up, where it did. -/
inductive Stage
  | queued
  | flying (requested : Str) (lookup : Option Lookup)
  | ended (o : Outcome)

structure Call where
  ask : Ask
  stage : Stage

/-- What a move finds: the labels, the denylist and the default efforts, the cache and its clock,
the breaker's settings and clocks, and the time the call has taken. -/
structure Site where
  label : Str → Str
  disabled : Str → Bool
  defaults : Defaults
  reachable : Bool
  now : ℚ
  swept : Option ℚ
  settings : Settings
  gated : ℚ
  shown : Seconds → Str
  tick : Tick
  wall : Millis

/-- The uses of the cache, the breakers and the calls; and, as bookkeeping, what each breaker was
told and what each call reported. -/
structure World where
  uses : List (Use Stored)
  breakers : ℕ → Breaker
  calls : List Call
  told : ℕ → List Health.Call
  log : List (ℕ × Report)

def World.start : World := ⟨[], fun _ _ => none, [], fun _ => [], []⟩

def World.set (w : World) (i : ℕ) (c : Call) : World := { w with calls := w.calls.set i c }

/-- What a call reports goes to its trace, if it has one. -/
def World.report (w : World) (i : ℕ) (c : Call) (r : Option Report) : World :=
  { w with log := w.log ++ if c.ask.traced then (r.map fun r => (i, r)).toList else [] }

section
variable [Floats] (u : Caching.Unicode) (h : Hash) (ttl cap : ℤ)

/-! ### One move -/

/-- The lookup of `_run`. -/
def Ask.lookup (site : Site) (a : Ask) (requested : Str) : Lookup where
  tool := txt "oracle:" ++ a.key
  models := [requested]
  question := a.question
  context := a.context
  effort := cacheEffort site.defaults a.key a.effort

/-- `disabled_result`. -/
def disabledResult (site : Site) (key model : Str) : OracleResult :=
  OracleResult.made
    { status := .error
      kind := txt "disabled"
      thinking := []
      model := orText model (site.label key)
      text := site.label key ++ txt (" is disabled by the operator (ASK_FABLE_DISABLED); " ++
        "re-enable it with the configure_disabled tool or by editing the denylist")
      key, returncode := none, telemetry := none }

/-- The result of a hit. -/
def hitResult (key requested : Str) (p : Stored) : OracleResult where
  status := p.status
  kind := p.kind
  text := p.text
  thinking := p.thinking
  model := p.model
  key := key
  returncode := none
  telemetry := some
    (reported key (some requested) (some p.model) (txt "cache") none noTime none none none)

/-- The result of a call that the breaker sheds. -/
def shedResult (site : Site) (b : Breaker) (key requested : Str) : OracleResult :=
  let gate := b.snapshot site.settings key site.gated
  { status := .error
    kind := txt "circuit_open"
    text :=
      if gate.skipReason = some .quotaHold then
        key ++ txt " is rate-limited (quota hold, ~" ++ site.shown (gate.resumeInS.getD 0) ++
          txt "s remaining)"
      else key ++ txt " circuit breaker is open (recent error rate exceeded threshold)"
    thinking := []
    model := requested
    key
    returncode := none
    telemetry := some (fallbackTelemetry key requested noTime [] none [] (txt "skipped")) }

/-- The end of `run`: the telemetry is filled in and reported. -/
def World.finish (w : World) (i : ℕ) (c : Call) (site : Site) (requested : Str) (r : OracleResult)
    (o : OracleResult → Outcome) : World :=
  let telemetry := r.filled
    (fallbackTelemetry c.ask.key requested site.wall r.model r.returncode r.thinking [])
  (w.report i c (recordProvider telemetry r.status r.thinking r.kind
    (if r.status = .ok then some r.text else none))).set i
      { c with stage := .ended (o { r with telemetry := some telemetry }) }

/-- A miss: the breaker's gate, then the backend. -/
def World.dispatch (w : World) (i : ℕ) (c : Call) (site : Site) (requested : Str)
    (lookup : Lookup) : World :=
  let b := w.breakers c.ask.process
  if b.shouldSkip site.settings c.ask.key site.gated then
    w.finish i c site requested (shedResult site b c.ask.key requested) .shed
  else w.set i { c with stage := .flying requested (some lookup) }

/-- `run` up to its backend. -/
def World.begin (w : World) (i : ℕ) (c : Call) (site : Site) : World :=
  let a := c.ask
  let requested := orText (a.model.getD []) (site.label a.key)
  if site.disabled a.key then
    w.set i { c with stage := .ended (.disabled (disabledResult site a.key requested)) }
  -- the search router is neither cached nor gated
  else if a.key = txt "websearch" then w.set i { c with stage := .flying requested none }
  else
    let lookup := a.lookup site requested
    if site.reachable then
      let ck := lookup.key u h
      let looked : World := { w with uses := w.uses ++ [.get ck site.now] }
      match (get ttl site.now ck (Caching.uses ttl cap w.uses)).2 with
      | some (payload, age) =>
        if payload.status = .ok then
          looked.finish i c site requested (hitResult a.key requested payload)
            (.hit requested lookup payload age)
        else looked.dispatch i c site requested lookup
      | none => looked.dispatch i c site requested lookup
    else w.dispatch i c site requested lookup

/-- `served_as_named`. -/
def servedAsNamed (key requested : Str) (r : OracleResult) : Bool :=
  key ∉ ANTHROPIC ∨ r.model = [] ∨ r.model = requested

/-- What may be served again. -/
def cacheable (key requested : Str) (r : OracleResult) : Bool :=
  r.status = .ok ∧ r.kind ≠ txt "truncated" ∧ servedAsNamed key requested r

def Stored.of (traceId : Option Str) (r : OracleResult) : Stored :=
  ⟨r.status, r.text, r.kind, r.model, r.thinking, traceId⟩

/-- The outcome is told to the breaker of the process. -/
def World.tell (w : World) (p : ℕ) (c : Health.Call) : World :=
  { w with
    breakers := Function.update w.breakers p
      ((w.breakers p).record c.cfg c.key c.status c.kind c.tick).1
    told := Function.update w.told p (w.told p ++ [c]) }

/-- The backend answers. -/
def World.answer (w : World) (i : ℕ) (c : Call) (site : Site) (requested : Str)
    (lookup : Option Lookup) (r : OracleResult) : World :=
  match lookup with
  | none => w.finish i c site requested r (.answered requested none)
  | some l =>
    let told := w.tell c.ask.process
      ⟨site.settings, c.ask.key, statusText r.status, r.kind, site.tick⟩
    let w := if cacheable c.ask.key requested r ∧ site.reachable then
        { told with
          uses := told.uses ++ [.put ⟨l.key u h, .of c.ask.traceId r, site.now⟩ site.swept] }
      else told
    w.finish i c site requested r (.answered requested (some l))

/-- The backend ends without an answer; of the search router nothing is reported then. -/
def World.stop (w : World) (i : ℕ) (c : Call) (site : Site) (requested : Str)
    (lookup : Option Lookup) (kind : Str) (o : Outcome) : World :=
  (w.report i c (lookup.bind fun _ => recordUnfinished c.ask.key requested site.wall kind [])).set i
    { c with stage := .ended o }

inductive Move
  | ask (a : Ask) (bounded : Bool) (site : Site)
  | enter (i : ℕ) (site : Site)
  | answer (i : ℕ) (r : OracleResult) (site : Site)
  | fail (i : ℕ) (site : Site)
  | cancel (i : ℕ) (site : Site)

/-- A move that the stage of its call does not allow does nothing. -/
def World.step (w : World) : Move → World
  | .ask a bounded site =>
    let w' := { w with calls := w.calls ++ [⟨a, .queued⟩] }
    if bounded then w' else w'.begin u h ttl cap w.calls.length ⟨a, .queued⟩ site
  | .enter i site =>
    match w.calls[i]? with
    | some ⟨a, .queued⟩ => w.begin u h ttl cap i ⟨a, .queued⟩ site
    | _ => w
  | .answer i r site =>
    match w.calls[i]? with
    | some ⟨a, .flying requested lookup⟩ =>
      w.answer u h i ⟨a, .flying requested lookup⟩ site requested lookup r
    | _ => w
  | .fail i site =>
    match w.calls[i]? with
    | some ⟨a, .flying requested lookup⟩ =>
      w.stop i ⟨a, .flying requested lookup⟩ site requested lookup (txt "sdk_error") .failed
    | _ => w
  | .cancel i site =>
    match w.calls[i]? with
    | some ⟨a, .flying requested lookup⟩ =>
      w.stop i ⟨a, .flying requested lookup⟩ site requested lookup (txt "cancelled") .cancelled
    | some ⟨a, .queued⟩ =>
      (w.report i ⟨a, .queued⟩ (recordUnfinished a.key (site.label a.key) noTime (txt "cancelled")
        (txt "skipped"))).set i ⟨a, .ended .dropped⟩
    | _ => w

def World.run (w : World) (ms : List Move) : World := ms.foldl (World.step u h ttl cap) w

end

end AskFable.Oracle

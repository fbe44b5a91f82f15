import AskFable.Python.JsonPlain
import AskFable.Python.Utf8
import AskFable.Trace.Telemetry

/-!
# Recording a tool call

What `provider` and `complete` do to the trace of a call: the events they attempt, the
totals they keep and the result they return. An event that the log refuses leaves the trace
degraded; a text that cannot be encoded is an exception of its own, which only the writer of
bundles and the log itself catch.
-/
namespace AskFable.Trace
open AskFable.Text AskFable.Python AskFable.Python.JsonText

/-! ### What a provider reports -/

/-- `_put`. -/
def put (block : Dict) (name : Str) (value : Option Json) : Dict :=
  value.elim block (Dict.set block name)

/-- `_put` for each field. -/
def putAll (block : Dict) (values : List (Str × Option Json)) : Dict :=
  values.foldl (fun block v => put block v.1 v.2) block

/-- A count as JSON. -/
def count (n : ℕ) : Json := .int n

/-- Floats are kept by their `repr`. -/
structure ProviderUsage where
  inputTokens : Option ℕ
  outputTokens : Option ℕ
  cacheReadInputTokens : Option ℕ
  cacheCreationInputTokens : Option ℕ
  totalTokens : Option ℕ
  costUsd : Option Str
  costBasis : Option Str

def ProviderUsage.toEventDict (u : ProviderUsage) : Dict :=
  let block := putAll []
    [(txt "input_tokens", u.inputTokens.map count), (txt "output_tokens", u.outputTokens.map count),
      (txt "cache_read_input_tokens", u.cacheReadInputTokens.map count),
      (txt "cache_creation_input_tokens", u.cacheCreationInputTokens.map count),
      (txt "total_tokens", u.totalTokens.map count), (txt "cost_usd", u.costUsd.map .float)]
  match u.costUsd, u.costBasis with
  | some _, some basis => if basis = [] then block else Dict.set block (txt "cost_basis") (.str basis)
  | _, _ => block

structure ToolEvent where
  name : Str
  callId : Option Str
  status : Option Str
  durationMs : Option Str
  exitCode : Option ℤ
  inputFingerprint : Option Str
  outputFingerprint : Option Str

def ToolEvent.toEventDict (e : ToolEvent) : Dict :=
  putAll [(txt "name", .str e.name)]
    [(txt "call_id", e.callId.map .str), (txt "status", e.status.map .str),
      (txt "duration_ms", e.durationMs.map .float), (txt "exit_code", e.exitCode.map .int),
      (txt "input_fingerprint", e.inputFingerprint.map .str),
      (txt "output_fingerprint", e.outputFingerprint.map .str)]

/-- The wall time is a difference of two readings of a clock, so it is finite. -/
structure ProviderTelemetry where
  oracleKey : Str
  requestedModel : Option Str
  actualModel : Option Str
  transport : Option Str
  providerRequestId : Option Str
  providerSessionId : Option Str
  stopReason : Option Str
  returncode : Option ℤ
  httpStatus : Option ℤ
  retryCount : ℕ
  wallDurationMs : Option Str
  providerDurationMs : Option Str
  apiDurationMs : Option Str
  reasoningAvailable : Option Bool
  usageAvailable : Option Bool
  toolsAvailable : Option Bool
  unknownEventCount : ℕ
  unknownEventFingerprints : List Str
  usage : Option ProviderUsage
  toolEvents : List ToolEvent
  finite : ∀ s ∈ wallDurationMs, s ∉ NON_FINITE

def ProviderTelemetry.toEventDict (t : ProviderTelemetry) : Dict :=
  let block := putAll
    [(txt "oracle_key", .str t.oracleKey), (txt "retry_count", count t.retryCount),
      (txt "unknown_event_count", count t.unknownEventCount),
      (txt "tool_events", .arr (t.toolEvents.map fun e => .obj e.toEventDict))]
    [(txt "requested_model", t.requestedModel.map .str), (txt "actual_model", t.actualModel.map .str),
      (txt "transport", t.transport.map .str),
      (txt "provider_request_id", t.providerRequestId.map .str),
      (txt "provider_session_id", t.providerSessionId.map .str),
      (txt "stop_reason", t.stopReason.map .str), (txt "returncode", t.returncode.map .int),
      (txt "http_status", t.httpStatus.map .int), (txt "wall_duration_ms", t.wallDurationMs.map .float),
      (txt "provider_duration_ms", t.providerDurationMs.map .float),
      (txt "api_duration_ms", t.apiDurationMs.map .float),
      (txt "reasoning_available", t.reasoningAvailable.map .bool),
      (txt "usage_available", t.usageAvailable.map .bool),
      (txt "tools_available", t.toolsAvailable.map .bool)]
  let block := if t.unknownEventFingerprints = [] then block
    else Dict.set block (txt "unknown_event_fingerprints") (.arr (t.unknownEventFingerprints.map .str))
  t.usage.elim block fun u => Dict.set block (txt "usage") (.obj u.toEventDict)

/-! ### The surroundings -/

/-- What a trace finds around it: the settings, what it draws for each event by the number
of events before it, which events the log takes and where a bundle ends up, and functions
whose values nothing here depends on. `startedAt` is the time a wall time ago, none unless
that is positive. -/
structure Env where
  mode : Str
  project : Str
  serverInstance : Str
  eventId : ℕ → Str
  spanId : ℕ → Str
  now : ℕ → Datetime
  elapsedMs : ℕ → ℤ
  startedAt : Str → Option Datetime
  accepts : ℕ → TraceEvent → Bool
  storeBundle : Str → Option Str
  sha256 : Bytes → Str
  redactText : Str → Str × ℕ
  isSecretKey : Str → Bool
  floatSum : Json → Json → Json
  round12 : Json → Json

/-- The keyword arguments of `TraceEvent.new`. -/
structure EventFields where
  parentSpanId : Option Str := none
  durationMs : Option Str := none
  serverInstanceId : Option Str := none
  mcpRequestId : Option Str := none
  tool : Option Str := none
  mode : Option Str := none
  session : Option Str := none
  cache : Option Dict := none
  provider : Option Dict := none
  usage : Option Dict := none
  orchestration : Option Dict := none
  artifact : Option Dict := none
  error : Option Dict := none
  output : Option Dict := none

/-- `TraceEvent.new`, after `drawn` events. -/
def TraceEvent.new (env : Env) (drawn : ℕ) (eventName : Str) (kind : EventKind)
    (traceId spanId status : Str) (fields : EventFields) : TraceEvent where
  eventId := env.eventId drawn
  traceId := if traceId = [] then env.eventId drawn else traceId
  spanId := if spanId = [] then env.spanId drawn else spanId
  parentSpanId := fields.parentSpanId
  eventName := eventName
  kind := kind
  timestamp := (env.now drawn).isoZ
  durationMs := fields.durationMs
  serverInstanceId := fields.serverInstanceId
  mcpRequestId := fields.mcpRequestId
  project := some env.project
  tool := fields.tool
  mode := fields.mode
  session := fields.session
  status := some status
  cache := fields.cache
  provider := fields.provider
  usage := fields.usage
  orchestration := fields.orchestration
  artifact := fields.artifact
  error := fields.error
  output := fields.output

/-- `value` of `capture_content`. -/
inductive Content
  | text (s : Str)
  | raw (bytes : Bytes)

structure ContentCapture where
  sha256 : Str
  chars : Option ℕ
  bytes : ℕ
  encoding : Str
  redactionCount : ℕ
  text : Option Str

/-- `capture_content`; none is its `UnicodeEncodeError`. -/
def captureContent (env : Env) (full : Bool) : Content → Option ContentCapture
  | .text s =>
    (Utf8.encode s).map fun raw =>
      ⟨env.sha256 raw, some s.length, raw.length, txt "utf-8", (env.redactText s).2,
        if full then some (env.redactText s).1 else none⟩
  | .raw bytes => some ⟨env.sha256 bytes, none, bytes.length, txt "binary", 0, none⟩

def ContentCapture.toDict (c : ContentCapture) : Dict :=
  let result : Dict :=
    [(txt "sha256", .str c.sha256), (txt "chars", (c.chars.map count).getD .null),
      (txt "bytes", count c.bytes), (txt "encoding", .str c.encoding),
      (txt "redaction_count", count c.redactionCount)]
  put result (txt "text") (c.text.map .str)

/-! ### The trace of a call -/

structure ToolTrace where
  tool : Str
  arguments : Dict
  mcpRequestId : Option Str
  traceId : Str
  spanId : Str
  degraded : Bool
  completed : Bool
  providerSpans : ℕ
  toolEvents : ℕ
  reasoningAvailable : Bool
  usage : Option Dict
  cacheSummary : Option Dict
  reasoning : List Json
  orchestration : Option Dict

def ToolTrace.session (t : ToolTrace) : Option Str :=
  match Dict.get t.arguments (txt "session") with
  | some (.str s) => some s
  | _ => none

/-- A trace with the events it has attempted. -/
structure Traced where
  trace : ToolTrace
  attempted : List TraceEvent

namespace Traced

/-- Whether the log takes the next event. -/
def accepts (env : Env) (t : Traced) (e : TraceEvent) : Bool := env.accepts t.attempted.length e

/-- `if not _store().append(event): self.degraded = True`. -/
def append (env : Env) (t : Traced) (e : TraceEvent) : Traced :=
  ⟨if t.accepts env e then t.trace else { t.trace with degraded := true }, t.attempted ++ [e]⟩

/-- `emit` on the span of the tool. -/
def emit (env : Env) (t : Traced) (eventName : Str) (kind : EventKind) (status : Str)
    (fields : EventFields) : Traced :=
  t.append env (.new env t.attempted.length eventName kind t.trace.traceId t.trace.spanId status
    { fields with
      tool := some t.trace.tool
      mcpRequestId := t.trace.mcpRequestId
      serverInstanceId := some env.serverInstance
      session := t.trace.session
      mode := some env.mode })

end Traced

/-! ### A provider's answer -/

/-- `x + y`. -/
def plus (env : Env) (x y : Json) : Json :=
  match x, y with
  | .int a, .int b => .int (a + b)
  | x, y => env.floatSum x y

/-- `isinstance(x, (int, float)) and not isinstance(x, bool)`. -/
def isNumber : Json → Bool
  | .int _ | .float _ => true
  | _ => false

/-- One item of a usage added to the totals; the cost of a subscription has a total of its
own. -/
def addItem (env : Env) (subscription : Bool) (totals : Dict) (item : Str × Json) : Dict :=
  if isNumber item.2 then
    let name := if item.1 = txt "cost_usd" ∧ subscription = true then txt "cost_usd_notional" else item.1
    let prior := ((Dict.get totals name).filter isNumber).getD (.int 0)
    let total := plus env prior item.2
    Dict.set totals name (if txt "cost_usd" <+: name then env.round12 total else total)
  else totals

/-- The usage of one more provider. -/
def addUsage (env : Env) (held : Option Dict) (usage : Dict) : Option Dict :=
  if usage.isEmpty then held
  else
    let totals := held.getD [(txt "coverage_count", .int 0)]
    let seen := match Dict.get totals (txt "coverage_count") with
      | some (.int n) => n
      | _ => 0
    some (usage.foldl (addItem env (Dict.getIs usage (txt "cost_basis") (txt "subscription")))
      (Dict.set totals (txt "coverage_count") (.int (seen + 1))))

namespace Traced
variable (env : Env)

/-- An event of a provider's span or of one of its attempts, perhaps back-dated. -/
def spanEvent (t : Traced) (drawn : ℕ) (eventName : Str) (kind : EventKind) (spanId status : Str)
    (startedAt : Option Datetime) (fields : EventFields) : TraceEvent :=
  let e := TraceEvent.new env drawn eventName kind t.trace.traceId spanId status
    { fields with tool := some t.trace.tool }
  startedAt.elim e fun start => { e with timestamp := start.isoMicros }

/-- The two events of one attempt of `attempts`. -/
def attempt (attempts : ℕ) (providerSpan status : Str) (startedAt : Option Datetime) (t : Traced)
    (n : ℕ) : Traced :=
  let spanId := env.spanId t.attempted.length
  let fields : EventFields :=
    { parentSpanId := some providerSpan, orchestration := some [(txt "attempt", count n)] }
  let t := t.append env (t.spanEvent env t.attempted.length (txt "provider.attempt.started") .span
    spanId (txt "started") (if n = 1 then startedAt else none) fields)
  t.append env (t.spanEvent env t.attempted.length (txt "provider.attempt.completed") .span
    spanId (if n = attempts then status else txt "retry") none fields)

/-- The digest of an answer, if there is one; none when it cannot be taken. -/
def digest (answer : Option Str) : Option (Option Dict) :=
  match answer with
  | none | some [] => some none
  | some text =>
    (captureContent env (env.mode = txt "full") (.text text)).map fun c => some c.toDict

/-- `provider` after the digest. -/
def recordSpans (t : Traced) (telemetry : ProviderTelemetry) (status thinking kind : Str)
    (output : Option Dict) : Traced :=
  let usage := telemetry.usage.map ProviderUsage.toEventDict
  let span := env.spanId t.attempted.length
  let error : Option Dict :=
    if status = txt "error" ∨ status = txt "refused" then
      some ((txt "category", .str status) :: if kind = [] then [] else [(txt "kind", .str kind)])
    else none
  let startedAt := telemetry.wallDurationMs.bind env.startedAt
  let drawn := t.attempted.length
  let started := t.spanEvent env drawn (txt "provider.started") .provider span (txt "started") startedAt
    { parentSpanId := some t.trace.spanId, provider := some telemetry.toEventDict }
  let completed := t.spanEvent env (drawn + 1) (txt "provider.completed") .provider span status none
    { parentSpanId := some t.trace.spanId, durationMs := telemetry.wallDurationMs
      provider := some telemetry.toEventDict, usage := usage, error := error, output := output }
  let taken := t.accepts env started
  let t := t.append env started
  -- the second append is not tried when the first one fails
  let t := if taken then t.append env completed else t
  let attempts := telemetry.retryCount + 1
  let t := ((List.range attempts).map (· + 1)).foldl (attempt env attempts span status startedAt) t
  { t with
    trace :=
      { t.trace with
        providerSpans := t.trace.providerSpans + 1
        toolEvents := t.trace.toolEvents + telemetry.toolEvents.length
        reasoningAvailable := t.trace.reasoningAvailable || !thinking.isEmpty
        reasoning := if thinking.isEmpty then t.trace.reasoning
          else t.trace.reasoning ++
            [.obj [(txt "provider", .str telemetry.oracleKey), (txt "thinking", .str thinking)]]
        usage := usage.elim t.trace.usage (addUsage env t.trace.usage) } }

/-- `provider`; none when it raises, which it does before it changes anything. -/
def provider (t : Traced) (telemetry : ProviderTelemetry) (status thinking kind : Str)
    (answer : Option Str) : Option Traced :=
  (digest env answer).map (recordSpans env t telemetry status thinking kind)

end Traced

/-! ### The result of the call -/

/-- `_NO_BUNDLE_TOOLS`. -/
def NO_BUNDLE_TOOLS : List Str :=
  [txt "trace_list", txt "trace_get", txt "stats", txt "session_list", txt "session_peek",
    txt "session_stats", txt "context_list", txt "context_read", txt "context_delete",
    txt "list_ollama_models", txt "list_lms_models", txt "host_status", txt "unload_lms_model",
    txt "list_atlas_models", txt "configure_tracing", txt "configure_ollama_council",
    txt "reset_session"]

def REDACTED : Json := .str (txt "[REDACTED]")

mutual

/-- `redact_value`. -/
def redactValue (env : Env) : Json → Json
  | .str s => .str (env.redactText s).1
  | .arr xs => .arr (redactAll env xs)
  | .obj items => .obj (redactItems env items)
  | v => v

def redactAll (env : Env) : List Json → List Json
  | [] => []
  | x :: xs => redactValue env x :: redactAll env xs

def redactItems (env : Env) : List (Str × Json) → List (Str × Json)
  | [] => []
  | (name, x) :: items =>
    (name, if name ≠ [] ∧ env.isSecretKey name = true then REDACTED else redactValue env x) ::
      redactItems env items

end

/-- `trace_bundle.write`: the path, none when nothing was written. It catches what the
encoder raises; how much of a long text is kept is left to the disk. -/
def writeBundle (env : Env) (content : Dict) : Option Str :=
  if env.mode = txt "full" then
    (dumpsPlain (redactValue env (.obj content))).bind fun text =>
      if text.any isSurrogate then none else env.storeBundle text
  else none

/-- `x.strip()` of a string that is not blank. -/
def textIn (payload : Dict) (name : Str) : Option Str :=
  match Dict.get payload name with
  | some (.str s) => if strip s = [] then none else some (strip s)
  | _ => none

/-- `_error_from_payload`. -/
def errorFromPayload (env : Env) (payload : Dict) (status : Str) : Option Dict :=
  if status = txt "error" ∨ status = txt "refused" ∨ status = txt "denied" then
    let detail := ((textIn payload (txt "detail")).or (textIn payload (txt "reason"))).map fun d =>
      let text := (env.redactText d).1
      if text.length ≤ 500 then text else text.take 499 ++ txt "…"
    some (putAll [(txt "category", .str status)]
      [(txt "kind", (textIn payload (txt "kind")).map .str), (txt "detail", detail.map .str),
        (txt "stage", (textIn payload (txt "stage")).map .str)])
  else none

/-- A block as JSON. -/
def blockJson (block : Option Dict) : Json := (block.map .obj).getD .null

/-- `payload.get(name)` if it is a dict. -/
def blockIn (payload : Dict) (name : Str) : Option Dict := (Dict.get payload name).bind Json.asDict

section
variable [Host]

/-- `str(x)`, which raises on an integer too long to print. -/
def strOf (x : Json) : Option Str := (dumpsPlain x).map fun _ => x.pyStr

/-- `list(x)`. -/
def listOf : Json → Option (List Json)
  | .arr xs => some xs
  | .str s => some (s.map fun c => .str [c])
  | .obj items => some (items.map fun p => .str p.1)
  | _ => none

/-- `payload.get("status") or "ok"`. -/
def statusIn (payload : Dict) : Option Str :=
  strOf (Dict.getOr payload (txt "status") (.str (txt "ok")))

/-- `payload.get("artifacts") or []`. -/
def artifactsIn (payload : Dict) : Option (List Json) :=
  listOf (Dict.getOr payload (txt "artifacts") (.arr []))

/-- The keys that `complete` sets in the result. -/
def ENVELOPE : List Str :=
  [txt "schema_version", txt "trace_id", txt "duration_ms", txt "cache", txt "usage",
    txt "artifacts", txt "telemetry"]

namespace Traced
variable [EventHost] (env : Env)

/-- One more artifact, with its event. -/
def saveArtifact (t : Traced) (kind path : Str) (artifacts : List Json) : Traced × List Json :=
  let artifact : Dict := [(txt "kind", .str kind), (txt "path", .str path)]
  (t.emit env (txt "artifact.saved") .artifact (txt "ok") { artifact := some artifact },
    artifacts ++ [.obj artifact])

/-- The bundle of the call, unless its tool has none. -/
def saveBundle (t : Traced) (payload : Dict) (artifacts : List Json) : Traced × List Json :=
  if NO_BUNDLE_TOOLS.contains t.trace.tool then (t, artifacts)
  else
    match writeBundle env [(txt "arguments", .obj t.trace.arguments), (txt "response", .obj payload),
        (txt "provider_reasoning", .arr t.trace.reasoning)] with
    | some path => t.saveArtifact env (txt "trace_bundle") path artifacts
    | none =>
      if env.mode = txt "full" then
        (({ t with trace := { t.trace with degraded := true } } : Traced).emit env
          (txt "persistence.error") .error (txt "degraded")
          { error := some [(txt "category", .str (txt "trace_bundle_write"))] }, artifacts)
      else (t, artifacts)

/-- The file that `payload["saved"]` names. -/
def saveFile (t : Traced) (payload : Dict) (artifacts : List Json) : Traced × List Json :=
  match Dict.get payload (txt "saved") with
  | some (.str saved) => t.saveArtifact env (txt "markdown") saved artifacts
  | _ => (t, artifacts)

/-- `tool.completed`, once; none when the digest of the payload raises. -/
def finish (t : Traced) (payload : Dict) (status : Str) (durationMs : ℤ) (cache : Option Dict)
    (artifacts : List Json) : Option Traced :=
  if t.trace.completed then some t
  else
    (dumpsPlain (.obj payload)).bind fun text =>
      (Utf8.encode text).map fun bytes =>
        let output : Json := .obj [(txt "sha256", .str (env.sha256 bytes)),
          (txt "chars", count text.length), (txt "bytes", count bytes.length)]
        let model := ([txt "model", txt "answered_by", txt "synthesizer"].findSome? fun name =>
          match Dict.get payload name with
          | some (.str s) => if s = [] then none else some (.str s)
          | _ => none).getD .null
        let orchestration := Dict.set (Dict.set (t.trace.orchestration.getD []) (txt "output") output)
          (txt "model") model
        let t := t.emit env (txt "tool.completed") .tool status
          { durationMs := some (EventHost.floatOfInt durationMs), cache := cache
            usage := (blockIn payload (txt "usage")).or t.trace.usage
            artifact := if artifacts = [] then none else some [(txt "items", .arr artifacts)]
            error := errorFromPayload env payload status, orchestration := some orchestration }
        { t with trace := { t.trace with completed := true } }

/-- The payload with the envelope of the trace. -/
def enveloped (t : Traced) (payload : Dict) (durationMs : ℤ) (cache : Option Dict)
    (artifacts : List Json) : Dict :=
  let telemetry : Json := .obj
    [(txt "status", .str (if t.trace.degraded then txt "degraded" else txt "ok")),
      (txt "provider_spans", count t.trace.providerSpans),
      (txt "tool_events", count t.trace.toolEvents),
      (txt "reasoning_available", .bool t.trace.reasoningAvailable)]
  [(txt "schema_version", .int 2), (txt "trace_id", .str t.trace.traceId),
    (txt "duration_ms", .int durationMs), (txt "cache", blockJson cache),
    (txt "usage", Dict.getOr payload (txt "usage") (blockJson t.trace.usage)),
    (txt "artifacts", .arr artifacts), (txt "telemetry", telemetry)].foldl
      (fun result item => Dict.set result item.1 item.2) payload

/-- `complete`: the result is none when it raises. -/
def complete (t : Traced) (payload : Dict) : Traced × Option Dict :=
  match statusIn payload, artifactsIn payload with
  | some status, some given =>
    let durationMs := env.elapsedMs t.attempted.length
    let cache := (blockIn payload (txt "cache")).or t.trace.cacheSummary
    let bundled := t.saveBundle env payload given
    let saved := bundled.1.saveFile env payload bundled.2
    match saved.1.finish env payload status durationMs cache saved.2 with
    | none => (saved.1, none)
    | some t => (t, some (t.enveloped payload durationMs cache saved.2))
  | _, _ => (t, none)

end Traced

end

end AskFable.Trace

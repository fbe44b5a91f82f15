import AskFable.Python.Datetime
import AskFable.Python.Json

/-!
# Trace events

An event as it is made and as it is read back from a line of the log: the identifiers, the
timestamp and the kind must be there, the rest may be missing. Reading refuses an event by
an exception it catches; an integer too large for a float is one it does not.
-/
namespace AskFable.Trace
open AskFable.Text AskFable.Python

/-- What the runtime decides about the values of an event: the offset from UTC that
`datetime.fromisoformat` reads in a text, in microseconds (none when it raises, none inside
for a time without a zone), and `repr(float(n))`. -/
class EventHost where
  fromisoformat : Str → Option (Option ℤ)
  floatOfInt : ℤ → Str

/-- A runtime that knows a UTC time by the offset it ends with. -/
@[reducible] def EventHost.iso : EventHost where
  fromisoformat text := if (txt "+00:00").isSuffixOf text then some (some 0) else none
  floatOfInt n := intStr n ++ txt ".0"

inductive EventKind
  | artifact
  | cache
  | error
  | internal
  | orchestration
  | provider
  | server
  | span
  | tool
  deriving DecidableEq

namespace EventKind

def value : EventKind → Str
  | artifact => txt "artifact"
  | cache => txt "cache"
  | error => txt "error"
  | internal => txt "internal"
  | orchestration => txt "orchestration"
  | provider => txt "provider"
  | server => txt "server"
  | span => txt "span"
  | tool => txt "tool"

def all : List EventKind :=
  [artifact, cache, error, internal, orchestration, provider, server, span, tool]

/-- `EventKind(text)`. -/
def ofValue (text : Str) : Option EventKind := all.find? fun k => k.value == text

theorem ofValue_value (k : EventKind) : ofValue k.value = some k := by cases k <;> decide

end EventKind

/-- The `schema_version` of an event is 2. A duration is kept by its `repr`. -/
structure TraceEvent where
  eventId : Str
  traceId : Str
  spanId : Str
  parentSpanId : Option Str
  eventName : Str
  kind : EventKind
  timestamp : Str
  durationMs : Option Str
  serverInstanceId : Option Str
  mcpRequestId : Option Str
  project : Option Str
  tool : Option Str
  mode : Option Str
  session : Option Str
  status : Option Str
  cache : Option Dict
  provider : Option Dict
  usage : Option Dict
  orchestration : Option Dict
  artifact : Option Dict
  error : Option Dict
  output : Option Dict

/-- An exception that `from_dict` catches, or one that leaves it. -/
inductive Refusal
  | caught
  | escaped
  deriving DecidableEq

/-- `float(n)` is an `OverflowError` from half an ulp beyond the largest float on. -/
def FLOAT_LIMIT : ℕ := 2 ^ 1024 - 2 ^ 970

/-- `_required_string`. -/
def requiredString (value : Dict) (name : Str) : Except Refusal Str :=
  match Dict.get value name with
  | some (.str s) => if s = [] then .error .caught else .ok s
  | _ => .error .caught

/-- `_optional_string`. -/
def optionalString (value : Dict) (name : Str) : Except Refusal (Option Str) :=
  match Dict.get value name with
  | none | some .null => .ok none
  | some (.str s) => .ok (some s)
  | some _ => .error .caught

/-- `_optional_block`. -/
def optionalBlock (value : Dict) (name : Str) : Except Refusal (Option Dict) :=
  match Dict.get value name with
  | none | some .null => .ok none
  | some (.obj items) => .ok (some items)
  | some _ => .error .caught

section
variable [EventHost]

/-- `_optional_number`; a bool is no number. -/
def optionalNumber (value : Dict) (name : Str) : Except Refusal (Option Str) :=
  match Dict.get value name with
  | none | some .null => .ok none
  | some (.int n) => if FLOAT_LIMIT ≤ n.natAbs then .error .escaped else .ok (some (EventHost.floatOfInt n))
  | some (.float shown) =>
    if shown = txt "nan" ∨ shown = txt "inf" ∨ shown = txt "-inf" then .error .caught
    else .ok (some shown)
  | some _ => .error .caught

/-- `_utc_timestamp`. -/
def utcTimestamp (value : Dict) : Except Refusal Str :=
  match requiredString value (txt "timestamp") with
  | .error e => .error e
  | .ok item =>
    let text := item.flatMap fun c => if c = cp 'Z' then txt "+00:00" else [c]
    if EventHost.fromisoformat text = some (some 0) then .ok item else .error .caught

/-- The body of `from_dict` inside its `try`. -/
def readEvent (value : Dict) : Except Refusal TraceEvent := do
  let eventId ← requiredString value (txt "event_id")
  let traceId ← requiredString value (txt "trace_id")
  let spanId ← requiredString value (txt "span_id")
  let eventName ← requiredString value (txt "event_name")
  let timestamp ← utcTimestamp value
  let kindText ← requiredString value (txt "kind")
  let kind ← (EventKind.ofValue kindText).elim (.error .caught) .ok
  let durationMs ← optionalNumber value (txt "duration_ms")
  let parentSpanId ← optionalString value (txt "parent_span_id")
  let serverInstanceId ← optionalString value (txt "server_instance_id")
  let mcpRequestId ← optionalString value (txt "mcp_request_id")
  let project ← optionalString value (txt "project")
  let tool ← optionalString value (txt "tool")
  let mode ← optionalString value (txt "mode")
  let session ← optionalString value (txt "session")
  let status ← optionalString value (txt "status")
  let cache ← optionalBlock value (txt "cache")
  let provider ← optionalBlock value (txt "provider")
  let usage ← optionalBlock value (txt "usage")
  let orchestration ← optionalBlock value (txt "orchestration")
  let artifact ← optionalBlock value (txt "artifact")
  let error ← optionalBlock value (txt "error")
  let output ← optionalBlock value (txt "output")
  pure ⟨eventId, traceId, spanId, parentSpanId, eventName, kind, timestamp, durationMs,
    serverInstanceId, mcpRequestId, project, tool, mode, session, status, cache, provider, usage,
    orchestration, artifact, error, output⟩

/-- `TraceEvent.from_dict`: none inside when it returns `None`, none when it raises. -/
def fromDict (value : Dict) : Option (Option TraceEvent) :=
  match Dict.get value (txt "schema_version") with
  | some (.int 2) =>
    match readEvent value with
    | .ok event => some (some event)
    | .error .caught => some none
    | .error .escaped => none
  | _ => some none

end

end AskFable.Trace

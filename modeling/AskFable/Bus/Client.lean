import AskFable.Bus.Listing
import AskFable.Bus.Reader

/-!
# The client of the bus

The store's operations as they run against the owner of the bus: the request, what is made of the
answer, the envelope opened and its timestamp held against the marks of the machine. The owner and
the network answer as they like; an answer is the bytes that came back.
-/
namespace AskFable.Bus
open AskFable.Text AskFable.Python AskFable.Python.Bytes AskFable.Python.JsonText

def PROTO : ℤ := 1

/-- `BusError` and its subclasses. -/
inductive BusKind
  | BusError
  | BusUnreachable
  | BusAuthError
  | BusRejected
  | BusProtocolError
  deriving DecidableEq, Repr

structure BusError where
  kind : BusKind
  detail : Str
  deriving DecidableEq

/-- What ends a request: a `BusError`, which the store catches, or what it does not. -/
inductive Failed
  | bus (e : BusError)
  | raised (r : Raised)
  /-- `int()` or `float()` of what is no number. -/
  | noNumber
  deriving DecidableEq

inductive Message
  | put (key envelope writer : Str) (tsNs : ℤ) (plaintextBytes : ℕ)
  | get (key : Str)
  | delete (key : Str)
  | list
  deriving DecidableEq

/-- `json.dumps(payload, separators=(",", ":"))`. -/
def Message.body : Message → Str
  | .put key envelope writer tsNs plaintextBytes =>
    txt "\x7b\"key\":" ++ dumpAscii key ++ txt ",\"envelope\":" ++ dumpAscii envelope ++
      txt ",\"writer\":" ++ dumpAscii writer ++ txt ",\"ts_ns\":" ++ intStr tsNs ++
      txt ",\"plaintext_bytes\":" ++ natStr plaintextBytes ++ txt "\x7d"
  | .get key | .delete key => txt "\x7b\"key\":" ++ dumpAscii key ++ txt "\x7d"
  | .list => txt "\x7b\"bounded\":true\x7d"

/-- What a request meets: the URL and the body cap that are set, what `_optional_token` and
`_connection` raise, if anything, and the transport's exception or the response. -/
structure Net where
  url : Str
  cap : ℕ
  token : Option BusError
  connection : Option BusError
  exchange : Except Str (ℕ × Bytes)

def refused {α : Type} (kind : BusKind) (detail : Str) : Except Failed α :=
  .error (.bus ⟨kind, detail⟩)

section
variable [Host]

/-- The document of a response; what is none reads as the empty object. -/
def document (raw : Bytes) : Except Failed Json :=
  if raw = [] then .ok (.obj [])
  else
    match Utf8.decode raw with
    | none => .ok (.obj [])
    | some text =>
      match loads text with
      | .ok doc => .ok doc
      | .error .recursion => .error (.raised (.fault .RecursionError))
      | .error .value | .error .digits => .ok (.obj [])

/-- `== PROTO`. -/
def isProto : Json → Bool
  | .int n => n == PROTO
  | .bool b => b
  | .float shown => shown == txt "1.0"
  | _ => false

/-- What `request` makes of a response. -/
def response (status : ℕ) (body : Bytes) : Except Failed Dict := do
  let raw := body.take (MAX_RESPONSE + 1)
  let doc ← document raw
  let items := doc.asDict
  let detail := items.elim [] fun obj => Dict.text obj (txt "error")
  if status = 401 then
    refused .BusAuthError (if detail = [] then txt "daemon rejected the request auth" else detail)
  else if status = 409 ∨ status = 413 then
    refused .BusRejected
      (natStr status ++ cp ' ' :: if detail = [] then txt "rejected" else detail)
  else if 400 ≤ status then
    refused .BusError (strip (txt "daemon returned " ++ natStr status ++ cp ' ' :: detail))
  else if MAX_RESPONSE < raw.length then
    refused .BusProtocolError (txt "response exceeds the client cap")
  else
    match items with
    | none => refused .BusProtocolError (txt "response is not a JSON object")
    | some obj =>
      if (Dict.get obj (txt "proto")).any isProto then .ok obj
      else refused .BusProtocolError (txt "daemon speaks proto " ++
        Host.shown ((Dict.get obj (txt "proto")).getD .null) ++ txt ", client speaks " ++
        intStr PROTO)

/-- `request`: the message that left, if it did, and the answer. -/
def request (net : Net) (m : Message) : Option Message × Except Failed Dict :=
  if strip net.url = [] then (none, refused .BusError (txt "context bus URL is not configured"))
  else if net.cap < m.body.length then
    (none, refused .BusRejected (txt "request body is " ++ natStr m.body.length ++
      txt " bytes (cap " ++ natStr net.cap ++ txt ")"))
  else
    match net.token, net.connection with
    | some e, _ | none, some e => (none, .error (.bus e))
    | none, none =>
      (some m,
        match net.exchange with
        | .error detail =>
          refused .BusUnreachable (txt "unreachable " ++ strip net.url ++ txt ": " ++ detail)
        | .ok (status, body) => response status body)

/-! ### The backend -/

section
-- `float()`, which may raise
variable {F : Type} (floatOf : Json → Option F)

/-- `int(d.get(k) or 0)`. -/
def intOr (d : Dict) (k : Str) : Except Failed ℤ :=
  match (Dict.getOr d k (.int 0)).intOf with
  | .value n => .ok n
  | .mismatch => .error .noNumber
  | .overflow => .error (.raised (.fault .OverflowError))

/-- `float(d.get(k) or 0.0)`. -/
def floatOr (d : Dict) (k : Str) : Except Failed F :=
  match floatOf (Dict.getOr d k (.float (txt "0.0"))) with
  | some x => .ok x
  | none => .error .noNumber

/-- The envelope of an answer, its metadata checked. -/
def envelopeOf (d : Dict) (key : Str) : Except Failed Str := do
  let envelope := Dict.text d (txt "envelope")
  let ts ← intOr d (txt "ts_ns")
  match checkMeta key envelope (Dict.text d (txt "writer")) ts with
  | .error f => .error (.raised (.fault f))
  | .ok (some detail) => refused .BusProtocolError detail
  | .ok none => .ok envelope

/-- `row`: the envelope and the time the owner says it received it. -/
def row (net : Net) (key : Str) : Except Failed (Option (Str × F)) := do
  let obj ← (request net (.get key)).2
  if Dict.truthy obj (txt "found") then
    let envelope ← envelopeOf obj key
    let received ← floatOr floatOf obj (txt "received_ts")
    return some (envelope, received)
  else return none

/-- A row of a listing. -/
structure ListRow (F : Type) where
  key : Str
  ts : F
  bytes : ℤ
  value : Option Str

/-- One item of `rows`; what is no object is passed over. -/
def listRow (item : Json) : Except Failed (Option (ListRow F)) :=
  match item with
  | .obj r => do
    let key := Dict.text r (txt "key")
    let ts ← floatOr floatOf r (txt "received_ts")
    let bytes ← intOr r (txt "plaintext_bytes")
    match Dict.get r (txt "envelope") with
    | none => return some ⟨key, ts, bytes, none⟩
    | some _ =>
      let envelope ← envelopeOf r key
      return some ⟨key, ts, bytes, some envelope⟩
  | _ => .ok none

def listRows : List Json → Except Failed (List (ListRow F))
  | [] => .ok []
  | item :: items => do
    let row ← listRow floatOf item
    let rows ← listRows items
    return row.toList ++ rows

/-- `entries` of the backend. -/
def backendEntries (net : Net) : Except Failed (List (ListRow F)) := do
  let obj ← (request net .list).2
  match Dict.get obj (txt "rows") with
  | some (.arr items) => listRows floatOf items
  | _ => return []

end

/-! ### The store -/

deriving instance DecidableEq for ReadError

/-- What `_LAST_ERROR` is the text of. -/
inductive Degraded
  | sealing (key detail : Str)
  | bus (e : BusError)
  | read (e : ReadError)
  deriving DecidableEq

/-- How an operation ends: with a value and what it leaves in `_LAST_ERROR`, or by an exception
that nothing catches. -/
inductive Ending (α : Type)
  | returned (value : α) (lastError : Option Degraded)
  | raised (f : Failed)
  deriving DecidableEq

def Ending.map {α β : Type} (f : α → β) : Ending α → Ending β
  | .returned value lastError => .returned (f value) lastError
  | .raised e => .raised e

/-- A `BusError` is mapped, and what the operation then returns. -/
def caught {α : Type} (value : α) : Failed → Ending α
  | .bus e => .returned value (some (.bus e))
  | f => .raised f

/-- What an operation finds: the network, what `load_keyring` returns or raises, the guard's
setup, and whether its database opens each time it is needed. -/
structure Env where
  net : Net
  keyring : Except CryptoError Keyring
  guard : Guard
  opens : ℕ → Bool

section
variable (lib : Library) (env : Env)

/-- `_readable` with the marks of the machine. -/
def openServed (i : ℕ) (marks : Marks) (stored key : Str) : Marks × Except Raised ReadResult :=
  let (store, reading) :=
    readable lib true env.guard (if env.opens i then some marks else none) env.keyring stored key
  (store.getD marks, reading)

/-- `context_hwm.record`. -/
def record (marks : Marks) (key : Str) (ts : ℤ) : Marks :=
  match bindText key, bindInt ts with
  | .ok _, .ok _ => if env.guard.enabled ∧ env.opens 0 then bump marks key ts else marks
  | _, _ => marks

/-- `context_hwm.clear`. -/
def clear (marks : Marks) (key : Str) : Marks :=
  match bindText key with
  | .ok _ => if env.guard.enabled ∧ env.opens 0 then Function.update marks key none else marks
  | .error _ => marks

/-- A value to write, with what the write draws: the clock, the salt and the nonce. -/
structure Write where
  key : Str
  value : Str
  description : Str
  writer : Str
  tsNs : ℤ
  salt : Fixed SALT_LEN
  nonce : Fixed NONCE_LEN

/-- The message of a write, if the value can be sealed. -/
def Write.message (w : Write) : Except Raised Message := do
  let envelope ← «seal» lib w.value w.description (strip w.key) w.writer w.tsNs env.keyring w.salt
    w.nonce
  return .put (strip w.key) envelope w.writer w.tsNs w.value.length

/-- `put`: the message that left, the marks, and how it ends. -/
def put (marks : Marks) (w : Write) : Option Message × Marks × Ending Bool :=
  if strip w.key = [] then (none, marks, .returned false none)
  else
    match w.message lib env with
    | .error (.crypto e) => (none, marks, .returned false (some (.sealing (strip w.key) e.detail)))
    | .error (.fault f) => (none, marks, .raised (.raised (.fault f)))
    | .ok m =>
      let (left, answer) := request env.net m
      match answer with
      | .error f => (left, marks, caught false f)
      | .ok _ =>
        (left, if w.tsNs = 0 then marks else record env marks (strip w.key) w.tsNs,
          .returned true none)

section
variable {F : Type} (floatOf : Json → Option F)

/-- The row of a key, opened: the value, its description and the time it was received. -/
def fetch (marks : Marks) (key : Str) : Marks × Ending (Option (Str × Str × F)) :=
  let key := strip key
  match row floatOf env.net key with
  | .error f => (marks, caught none f)
  | .ok none => (marks, .returned none none)
  | .ok (some (envelope, received)) =>
    let (marks, reading) := openServed lib env 0 marks envelope key
    match reading with
    | .error r => (marks, .raised (.raised r))
    | .ok (.error e) => (marks, .returned none (some (.read e)))
    | .ok (.ok (value, description)) =>
      (marks, .returned (some (value, description.getD [], received)) none)

/-- `get`. -/
def get (marks : Marks) (key : Str) : Marks × Ending (Option Str) :=
  (fetch lib env floatOf marks key).map id fun e => e.map fun r => r.map fun p => p.1

/-- `get_meta`. -/
def getMeta (marks : Marks) (key : Str) : Marks × Ending (Option (Str × F × Str)) :=
  (fetch lib env floatOf marks key).map id fun e => e.map fun r => r.map fun p =>
    (p.1, p.2.2, p.2.1)

/-- `get_versioned`. -/
def getVersioned (marks : Marks) (key : Str) : Marks × Ending (Option (Str × ℕ)) :=
  (fetch lib env floatOf marks key).map id fun e => e.map fun r => r.map fun p => (p.1, 0)

end

/-- `delete`. -/
def delete (marks : Marks) (key : Str) : Marks × Ending Bool :=
  let key := strip key
  if key = [] then (marks, .returned false none)
  else
    match (request env.net (.delete key)).2 with
    | .error f => (marks, caught false f)
    | .ok obj =>
      if Dict.truthy obj (txt "deleted") then (clear env marks key, .returned true none)
      else (marks, .returned false none)

/-- An item of a listing. -/
structure ListEntry where
  key : Str
  bytes : ℤ
  ageS : ℤ
  description : Str
  unreadable : Option ReadError
  descriptionOmitted : Bool

/-- What a listing says of an envelope it opened, or could not. -/
def ListEntry.opened {F : Type} (r : ListRow F) (ageS : ℤ) (raw : Str) : ReadResult → ListEntry
  | .error e => ⟨r.key, raw.length, ageS, [], some e, false⟩
  | .ok (value, description) => ⟨r.key, value.length, ageS, description.getD [], none, false⟩

section
-- `max(0, int(now - (ts or now)))`, which may raise
variable {F : Type} (floatOf : Json → Option F) (age : F → Option ℤ)

/-- The loop of `entries`; the envelopes are counted. -/
def listed : ℕ → Marks → List (ListRow F) → Marks × Except Failed (List ListEntry)
  | _, marks, [] => (marks, .ok [])
  | i, marks, r :: rows =>
    match age r.ts with
    | none => (marks, .error .noNumber)
    | some ageS =>
      match r.value with
      | none =>
        let (marks, rest) := listed i marks rows
        (marks, rest.map (⟨r.key, r.bytes, ageS, [], none, true⟩ :: ·))
      | some raw =>
        match openServed lib env i marks raw r.key with
        | (marks, .error e) => (marks, .error (.raised e))
        | (marks, .ok reading) =>
          let (marks, rest) := listed (i + 1) marks rows
          (marks, rest.map (ListEntry.opened r ageS raw reading :: ·))

/-- `entries`. -/
def entries (marks : Marks) : Marks × Ending (List ListEntry) :=
  match backendEntries floatOf env.net with
  | .error f => (marks, caught [] f)
  | .ok rows =>
    match listed lib env age 0 marks rows with
    | (marks, .error f) => (marks, .raised f)
    | (marks, .ok out) => (marks, .returned out none)

end

end

end

end AskFable.Bus

import AskFable.Ask.Loop
import AskFable.General.Machine

/-!
# The model ladder behind a turn

`fable.run` as the bridge of one conversation: the transports of a call, the model that
each attempt asks for, the retry one rung down, and the resume id that goes with a
dispatch. Other calls of the process demote models at any await.
-/
namespace AskFable.Ask
open AskFable.Text AskFable.Python AskFable.Debate AskFable.Extract

inductive Transport
  | sdk
  | cli
  | http
  deriving DecidableEq

/-- `_ALL_TRANSPORTS`. -/
def ALL_TRANSPORTS : List Transport := [.sdk, .cli, .http]

/-- A model family, newest first; the last rung is the floor. -/
structure Ladder where
  candidates : List Str
  floored : candidates ≠ []

def FABLE_LADDER : Ladder := ⟨[txt "claude-fable-5-1", txt "claude-fable-5"], by simp⟩

def OPUS_LADDER : Ladder := ⟨[txt "claude-opus-5-5", txt "claude-opus-5"], by simp⟩

/-- `_unavailable`: the models that a transport has rejected. -/
abbrev Unavailable := List (Transport × Str)

section
variable (ladder : Ladder)

/-- The newest rung that a transport has not rejected. -/
def newest (unavailable : Unavailable) (transport : Transport) : Option Str :=
  ladder.candidates.find? fun c => !unavailable.contains (transport, c)

/-- `ladder_model`; `pin` is the operator's exact id, or empty. -/
def ladderModel (pin : Str) (unavailable : Unavailable) : Option Transport → Str
  | some transport =>
    if pin ≠ [] then pin
    else (newest ladder unavailable transport).getD (ladder.candidates.getLast ladder.floored)
  | none =>
    if pin ≠ [] then pin
    else
      (ladder.candidates.find? fun c => !ALL_TRANSPORTS.any fun t => unavailable.contains (t, c)).getD
        (ladder.candidates.getLast ladder.floored)

/-- `_demote`. -/
def demote (unavailable : Unavailable) (transport : Transport) (model : Str) :
    Unavailable × Option Str :=
  let unavailable := (transport, model) :: unavailable
  (unavailable, newest ladder unavailable transport)

end

def TRUTHY : List Str := [txt "1", txt "true", txt "yes", txt "on"]

def FALSY : List Str := [txt "0", txt "false", txt "no", txt "off"]

def transportOf (selector : Str) : Option Transport :=
  if selector = txt "sdk" then some .sdk
  else if selector = txt "cli" then some .cli
  else if selector = txt "http" then some .http
  else none

/-- `transport_plan`: the attempts of one call, none for a selector that names no
transport. -/
def transportPlan (lower : Str → Str) (selector legacy : Str) : Option (List Transport) :=
  let raw := lower (strip selector)
  let legacy := lower (strip legacy)
  let legacyPick : Option Transport :=
    if legacy ∈ TRUTHY then some .cli else if legacy ∈ FALSY then some .sdk else none
  if raw = [] ∨ raw = txt "auto" then
    some (legacyPick.elim [.sdk, .cli] fun t => [t])
  else (transportOf raw).map fun t => [t]

def REROUTE_KINDS : List Str := [txt "binary_missing", txt "sdk_unavailable"]

def HTTP_SESSION_PREFIX : Str := txt "http:"

/-- One call of `_dispatch`. -/
structure Dispatch where
  transport : Transport
  model : Str
  resume : Option Str
  deriving DecidableEq

/-- An error of the bridge itself. -/
def incapable (model text : Str) : BridgeResult :=
  ⟨⟨.error, txt "transport_incapable", text, [], model⟩, none, false⟩

/-- `_dispatch`, for what the transport would make of it: a conversation of the http
transport cannot be continued, nor can that transport continue one, and its answers carry
a marker. -/
def dispatched (d : Dispatch) (res : BridgeResult) : BridgeResult :=
  if ∃ id ∈ d.resume, HTTP_SESSION_PREFIX <+: id then
    incapable d.model (txt ("this session's earlier turn ran over the http transport, which " ++
      "keeps no server-side conversation, so no transport can continue it; reset the " ++
      "session (reset=true) or start a new one"))
  else if d.transport = .http then
    if ∃ id ∈ d.resume, id ≠ [] then
      incapable d.model (txt ("the http transport cannot resume a session (Claude Code SDK " ++
        "sessions are server-side); start a new thread, or set ASK_FABLE_FABLE_TRANSPORT=sdk"))
    else if res.status = .ok then
      { res with sessionId := some (HTTP_SESSION_PREFIX ++ res.sessionId.getD []) }
    else res
  else res

/-- A turn whose dispatch has not come back. -/
structure Flight where
  question : Str
  pin : Str
  resume : Option Str
  left : List Transport
  out : Dispatch
  /-- The dispatch is the retry one rung down. -/
  retried : Bool

/-- The process around one conversation. `answers` is a history: the ids of the recorded
answers with the models that gave them, the latest first. -/
structure Process where
  world : World
  unavailable : Unavailable
  answers : List (Str × Str)
  flight : Option Flight

def Process.init : Process := ⟨World.init, [], [], none⟩

inductive Input
  /-- A turn begins, under the operator's settings of that moment. -/
  | ask (question : Str) (reset : Bool) (modelEnv selector legacy : Str)
  | reply (res : BridgeResult)
  | cancel
  /-- Another call of the process sees a transport reject a model. -/
  | demoted (transport : Transport) (model : Str)

section
variable [Host] (lower : Str → Str) (ladder : Ladder) (t : Task)

/-- The id that an answer records. -/
def recordedId (res : BridgeResult) : Option Str :=
  match res.status, Sidecar.extract res.text with
  | .ok, .ok _ => res.sessionId.filter (· ≠ [])
  | _, _ => none

namespace Process

/-- The resume id that the store holds. -/
def stored (s : Process) : Option Str := s.world.store.resumeId (sessionKey t.slot)

/-- The first dispatch over a transport. -/
def attempt (s : Process) (question pin : Str) (resume : Option Str) (transport : Transport)
    (left : List Transport) : Process :=
  { s with
    flight := some
      { question := question
        pin := pin
        resume := resume
        left := left
        out := ⟨transport, ladderModel ladder pin s.unavailable (some transport), resume⟩
        retried := false } }

/-- The result goes back to the turn. -/
def finish (s : Process) (f : Flight) (res : BridgeResult) : Process :=
  { s with
    world := s.world.settle t f.question res
    answers := (recordedId res).elim s.answers fun id => (id, f.out.model) :: s.answers
    flight := none }

/-- A result that the model ladder does not retry. -/
def proceed (s : Process) (f : Flight) (res : BridgeResult) : Process :=
  match f.left with
  | transport :: left =>
    if res.kind ∈ REROUTE_KINDS then s.attempt ladder f.question f.pin f.resume transport left
    else s.finish t f res
  | [] => s.finish t f res

/-- A dispatch comes back. -/
def receive (s : Process) (f : Flight) (res : BridgeResult) : Process :=
  if f.retried = false ∧ f.pin = [] ∧ res.kind = txt "model_unavailable" then
    let (unavailable, nxt) := demote ladder s.unavailable f.out.transport f.out.model
    let s := { s with unavailable := unavailable }
    match nxt with
    | some model =>
      { s with flight := some { f with out := ⟨f.out.transport, model, none⟩, retried := true } }
    | none => s.proceed ladder t f res
  else s.proceed ladder t f res

/-- A turn begins. -/
def begin (s : Process) (question : Str) (reset : Bool) (modelEnv selector legacy : Str) :
    Process :=
  let s := if reset then { s with world := s.world.doReset t true } else s
  match transportPlan lower selector legacy with
  | some (transport :: left) =>
    s.attempt ladder question (strip modelEnv) (s.stored t) transport left
  | _ => s

def step (s : Process) : Input → Process
  | .ask question reset modelEnv selector legacy =>
    match s.flight with
    | none => s.begin lower ladder t question reset modelEnv selector legacy
    | some _ => s
  | .reply res =>
    match s.flight with
    | some f => s.receive ladder t f (dispatched f.out res)
    | none => s
  | .cancel => { s with flight := none }
  | .demoted transport model => { s with unavailable := (transport, model) :: s.unavailable }

/-- The dispatch an input leads to, with the answers recorded so far. -/
def dispatch (s : Process) (a : Input) : Option (Dispatch × List (Str × Str)) :=
  match s.flight, a with
  | none, .ask .. | some _, .reply _ =>
    (s.step lower ladder t a).flight.map fun f => (f.out, s.answers)
  | _, _ => none

end Process

end

end AskFable.Ask

import AskFable.Ask.Store
import AskFable.General.WeakLock

/-!
# Turns in one event loop

`ask` and `reset_session` as tasks that wait for the lock of their session key. What a task
does between two awaits is one step; a reply of the model, a cancellation and the eviction
of a lock nobody refers to come at any time.
-/
namespace AskFable.Ask
open AskFable.Text AskFable.Python AskFable.Debate AskFable.Extract

inductive Job
  | ask (question : Str) (reset : Bool)
  | reset (save : Bool)
  deriving DecidableEq

/-- A call that passed its first checks. -/
structure Task where
  id : ℕ
  slot : Slot
  job : Job
  deriving DecidableEq

/-- The arguments of a tool call; `disabled` tells whether the operator has disabled the
family it goes to. -/
inductive Request
  | ask (oracle session question reset : Json) (disabled : Bool)
  | askOpus (session question reset : Json) (disabled : Bool)
  | resetSession (model session save : Json)

/-- What the bridge returns. -/
structure BridgeResult extends Result where
  sessionId : Option Str
  resumeFailed : Bool

/-- `ALIASES`. -/
def ALIASES : List (Str × Str) :=
  [(txt "m3", txt "minimax"), (txt "gpt", txt "codex"), (txt "xai", txt "grok"),
    (txt "opus-5", txt "opus5"), (txt "claude-opus-5", txt "opus5"), (txt "opus5.5", txt "opus55"),
    (txt "opus-5.5", txt "opus55"), (txt "opus-55", txt "opus55"),
    (txt "claude-opus-5-5", txt "opus55"), (txt "opus4.8", txt "opus48"),
    (txt "opus-4.8", txt "opus48"), (txt "opus-48", txt "opus48"),
    (txt "claude-opus-4-8", txt "opus48"), (txt "sonnet5", txt "sonnet"),
    (txt "sonnet-5", txt "sonnet"), (txt "claude-sonnet-5", txt "sonnet"),
    (txt "fable5.1", txt "fable51"), (txt "fable-5.1", txt "fable51"),
    (txt "fable-51", txt "fable51"), (txt "claude-fable-5-1", txt "fable51")]

/-- What happens to a conversation. -/
inductive Event
  | reset (t : Task)
  | called (t : Task) (resume : Option Str)
  | forgot (t : Task)
  | recorded (t : Task) (sessionId : Option Str) (blocked : Bool)
  deriving DecidableEq

def Event.task : Event → Task
  | .reset t | .called t _ | .forgot t | .recorded t _ _ => t

def Event.slot (e : Event) : Slot := e.task.slot

/-- The store, the locks, and what happened, the latest first. -/
structure World where
  store : SessionStore
  locks : WeakLock.Table Str Task
  log : List Event

def World.init : World := ⟨fun _ => none, .empty, []⟩

inductive Act
  | start (id : ℕ) (req : Request)
  /-- A task gets its lock; `goes` tells whether its context resolves and the guard allows
  the question. -/
  | enter (t : Task) (goes : Bool)
  | reply (t : Task) (res : BridgeResult)
  /-- Cancelled, or the bridge raises. -/
  | cancel (t : Task)
  | evict (key : Str)

section
variable [Host] (lower : Str → Str)

/-- `str(x or dflt)`. -/
def textOr (x : Json) (dflt : Str) : Str := if x.truthy then x.pyStr else dflt

/-- A model token under its canonical name. -/
def canonical (x : Json) : Str :=
  let raw := lower (strip (textOr x (txt "fable")))
  (ALIASES.lookup raw).getD raw

/-- The label of a session. -/
def label (session : Json) : Str := textOr session (txt "default")

/-- The family an `ask` goes to. -/
def askFamily (oracle : Json) : Option Family :=
  let oracle := canonical lower oracle
  if txt "opus" <+: oracle then some .opus
  else if oracle ≠ [] ∧ oracle ≠ txt "fable" then none
  else some .fable

/-- The family a `reset_session` clears. -/
def resetFamily (model : Json) : Family :=
  if txt "opus" <+: canonical lower model then .opus else .fable

/-- `_handle_claude_ask` up to its lock. -/
def handleClaudeAsk (family : Family) (session question reset : Json) (disabled : Bool) :
    Option (Slot × Job) :=
  if disabled ∨ sessionLabelError ⟨family, textOr session []⟩ then none
  else some (⟨family, label session⟩, .ask (textOr question []) reset.truthy)

/-- The conversation a call is about, unless it is refused at once. -/
def Request.resolve : Request → Option (Slot × Job)
  | .ask oracle session question reset disabled =>
    (askFamily lower oracle).bind fun family =>
      handleClaudeAsk family session question reset disabled
  | .askOpus session question reset disabled =>
    handleClaudeAsk .opus session question reset disabled
  | .resetSession model session save =>
    let slot : Slot := ⟨resetFamily lower model, label session⟩
    if sessionLabelError slot then none else some (slot, .reset save.truthy)

namespace World

/-- `store.reset` of the task's session. -/
def doReset (w : World) (t : Task) (save : Bool) : World :=
  { w with
    store := (w.store.reset (sessionKey t.slot) save).1
    log := .reset t :: w.log }

/-- The task leaves, with its lock. -/
def leave (w : World) (t : Task) : World := { w with locks := w.locks.drop t }

/-- The bridge is called with the resume id that the store holds. -/
def call (w : World) (t : Task) : World :=
  { w with
    locks := w.locks.acquire t
    log := .called t (w.store.resumeId (sessionKey t.slot)) :: w.log }

/-- A task runs with its lock until its next await, or to its end. -/
def enter (w : World) (t : Task) (goes : Bool) : World :=
  match t.job with
  | .reset save => (w.doReset t save).leave t
  | .ask _ reset =>
    let w := if reset then w.doReset t true else w
    if goes then w.call t else w.leave t

/-- `bump_blocked` and `record_turn`. -/
def record (w : World) (t : Task) (question prose : Str) (sc : Option Sidecar.Fields)
    (res : BridgeResult) : World :=
  let blocked := (sc.bind (·.recommendation)) = some (txt "needs_more_context")
  { w with
    store := (w.store.bumpBlocked (sessionKey t.slot) blocked).recordTurn (sessionKey t.slot)
      ⟨question, prose, res.thinking⟩ res.sessionId
    log := .recorded t res.sessionId blocked :: w.log }

def forget (w : World) (t : Task) : World :=
  { w with
    store := w.store.forgetResume (sessionKey t.slot)
    log := .forgot t :: w.log }

/-- What an answered turn does to its session. -/
def settle (w : World) (t : Task) (question : Str) (res : BridgeResult) : World :=
  match res.status with
  | .refused => w
  | .error => if res.resumeFailed then w.forget t else w
  | .ok =>
    match Sidecar.extract res.text with
    | .ok (prose, sc) => w.record t question prose sc res
    | .error _ => w

/-- The bridge returns to a task that waits for it. -/
def reply (w : World) (t : Task) (res : BridgeResult) : World :=
  match t.job with
  | .ask question _ => (w.settle t question res).leave t
  | .reset _ => w

def step (w : World) : Act → World
  | .start id req =>
    match req.resolve lower with
    | some (slot, job) =>
      { w with locks := w.locks.request ⟨id, slot, job⟩ (sessionKey slot) }
    | none => w
  | .enter t goes => if w.locks.grantable t then w.enter t goes else w
  | .reply t res => if w.locks.holding t then w.reply t res else w
  | .cancel t => w.leave t
  | .evict key => { w with locks := w.locks.evict key }

end World

end

end AskFable.Ask

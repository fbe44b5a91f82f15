import AskFable.Bus.Wire
import AskFable.General.Linear
import AskFable.General.Machine

/-!
# A bus with its owner

Any number of machines that share the secrets of their keyrings call the store at the same time.
Requests reach the owner's daemon in any order, late or never; it turns some away before their
handler; an answer may not come back, and a client may have given up before its request is taken.
A handler reaches the table by one statement. Sweeps run between the handlers, whenever they like.
The log of what took effect is bookkeeping.
-/
namespace AskFable.Bus
open AskFable.Text AskFable.Python AskFable.Python.Bytes AskFable.Python.JsonText AskFable.Linear

/-- A key as the owner has it. -/
def wire (key : Str) : Str := strip (mend (strip key))

/-- What is done to the keys and what they hold, a value with its description. -/
inductive Effect
  | put (key value description : Str)
  | get (key : Str)
  | delete (key : Str)
  | evict (keys : List Str)

abbrev Contents := Str → Option (Str × Str)

def Effect.apply (m : Contents) : Effect → Contents
  | .put key value description => Function.update m key (some (value, description))
  | .get _ => m
  | .delete key => Function.update m key none
  | .evict keys => fun k => if k ∈ keys then none else m k

deriving instance DecidableEq for ListEntry

/-- What an operation returned. -/
inductive Result (F : Type)
  | put (e : Ending Bool)
  | fetch (e : Ending (Option (Str × Str × F)))
  | delete (e : Ending Bool)
  | entries (e : Ending (List ListEntry))
  deriving DecidableEq

/-- What the ring has for a key id is the secret of that id. -/
def Keyring.Shares (secrets : Byte → Bytes) (kr : Keyring) : Prop :=
  ∀ kid psk, kr.get kid = some psk → psk = secrets kid

/-- A machine that calls: it has the shared secrets, and no string is longer than the
interpreter's limit. -/
structure Caller (secrets : Byte → Bytes) where
  machine : ℕ
  env : Env
  op : Op
  shares : ∀ kr, env.keyring = .ok kr → kr.Shares secrets
  sized : ∀ w, op = .put w → w.value.length < 2 ^ 63

/-- A call: the request while the owner has not taken it, the answer it then gave, and how the
call ended, with the length of the log at its beginning and its end. -/
structure Call (secrets : Byte → Bytes) (F : Type) where
  caller : Caller secrets
  began : ℕ
  request : Option Message
  reply : Option (ℕ × Bytes)
  result : Option (Result F × ℕ)

/-- What comes back: the answer, unless it is lost or was never given. -/
def Call.heard {secrets : Byte → Bytes} {F : Type} (c : Call secrets F) (lost : Option Str) :
    Except Str (ℕ × Bytes) :=
  match lost, c.reply with
  | none, some reply => .ok reply
  | some detail, _ => .error detail
  | none, none => .error []

structure World (secrets : Byte → Bytes) (F : Type) where
  daemon : Daemon
  fleet : Fleet
  calls : List (Call secrets F)
  log : List (Event Effect)

def World.start (secrets : Byte → Bytes) (F : Type) : World secrets F :=
  ⟨⟨.empty, 0⟩, fun _ _ => none, [], []⟩

/-- An answer that is given before the handler. -/
abbrev Turned := { reply : ℕ × Bytes // 400 ≤ reply.1 }

inductive Happening (secrets : Byte → Bytes)
  | begin (c : Caller secrets)
  | take (i : ℕ) (turned : Option Turned) (now received : ℤ)
  | finish (i : ℕ) (lost : Option Str)
  | sweep (writer : Str) (n : ℕ)

section
variable [Host] (lib : Library) (clock : Clock) {F : Type} (floatOf : Json → Option F)
  (age : F → Option ℤ) (maxRows : ℕ)

/-- The request of an operation, if one leaves. -/
def Op.request (env : Env) : Op → Option Message
  | .put w => (Bus.put lib env (fun _ => none) w).1
  | .fetch key => (Bus.request env.net (.get (strip key))).1
  | .delete key => if strip key = [] then none else (Bus.request env.net (.delete (strip key))).1
  | .entries => (Bus.request env.net .list).1

/-- The operation, with its answer or what the transport raised. -/
def Op.finish (env : Env) (exchange : Except Str (ℕ × Bytes)) (marks : Marks) :
    Op → Marks × Result F
  | .put w =>
    let (_, marks, ending) := Bus.put lib { env with net := { env.net with exchange } } marks w
    (marks, .put ending)
  | .fetch key =>
    let (marks, ending) :=
      Bus.fetch lib { env with net := { env.net with exchange } } floatOf marks key
    (marks, .fetch ending)
  | .delete key =>
    let (marks, ending) := Bus.delete { env with net := { env.net with exchange } } marks key
    (marks, .delete ending)
  | .entries =>
    let (marks, ending) :=
      Bus.entries lib { env with net := { env.net with exchange } } floatOf age marks
    (marks, .entries ending)

/-- What took effect, by the answer. -/
def Op.effect (reply : Option (ℕ × Bytes)) : Op → Option Effect
  | .put w =>
    if reply = some acknowledged then some (.put (wire w.key) w.value w.description) else none
  | .fetch key => reply.map fun _ => .get (wire key)
  | .delete key => reply.map fun _ => .delete (wire key)
  | .entries => none

variable {secrets : Byte → Bytes}

def World.step (w : World secrets F) : Happening secrets → World secrets F
  | .begin c =>
    { w with calls := w.calls ++ [⟨c, w.log.length, c.op.request lib c.env, none, none⟩] }
  | .take i turned now received =>
    match w.calls[i]? with
    | some c =>
      match c.request, turned with
      | none, _ => w
      | some _, some reply =>
        { w with calls := w.calls.set i { c with request := none, reply := some reply.1 } }
      | some m, none =>
        let (daemon, reply) := w.daemon.serve clock m now received
        { w with
          daemon
          calls := w.calls.set i { c with request := none, reply }
          log := w.log ++ acts i (c.caller.op.effect reply) }
    | none => w
  | .finish i lost =>
    match w.calls[i]? with
    | some c =>
      match c.result with
      | some _ => w
      | none =>
        let (marks, result) :=
          c.caller.op.finish lib floatOf age c.caller.env (c.heard lost) (w.fleet c.caller.machine)
        { w with
          fleet := Function.update w.fleet c.caller.machine marks
          calls := w.calls.set i { c with result := some (result, w.log.length) } }
    | none => w
  | .sweep writer n =>
    if maxRows = 0 then w
    else
      let evicted := oldestOf w.daemon.table writer n
      { w with
        daemon := { w.daemon with table := w.daemon.table.remove evicted.contains }
        log := w.log ++ [⟨none, .evict evicted⟩] }

def World.run (w : World secrets F) (hs : List (Happening secrets)) : World secrets F :=
  hs.foldl (World.step lib clock floatOf age maxRows) w

end

end AskFable.Bus

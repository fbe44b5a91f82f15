import AskFable.General.Machine
import AskFable.General.Permits
import AskFable.Python.Json

/-!
# Slots and children of CLI calls

One process runs local CLIs for many callers. A worker thread waits for a slot of its
binary, starts the child and waits for it; its caller may be cancelled at any moment, sets an
event and kills the child through the handle the two share. Every move of a worker, a
caller or a child is one step, and the steps come in any order.
-/
namespace AskFable.Gate
open AskFable.Text AskFable.Python AskFable.Machine AskFable.Permits

def ARGV_REJECTED_PREFIX : Str := txt "cannot pass the arguments to "

/-- `_limit`, where the environment holds `raw`; 0 or less disables the gate. -/
def limit [Host] (raw : Option Str) : ℤ :=
  let raw := strip (raw.getD [])
  if raw = [] then 2 else (Host.intText raw).getD 2

/-- The key of a binary in `_gates`. -/
def gateKey (name : Str) : Str :=
  let key := strip (if name = [] then txt "cli" else name)
  if key = [] then txt "cli" else key

structure CliRun where
  returncode : Option ℤ
  stdout : Str
  stderr : Str
  timedOut : Bool
  queueTimedOut : Bool
  deriving DecidableEq

/-- A run that says nothing: nobody reads it. -/
def CliRun.discarded : CliRun := ⟨none, [], [], false, false⟩

/-- How `Popen` ends: with a child, an `OSError` or a `ValueError`. -/
inductive Popen
  | started
  | failed (shown : Str)
  | rejected (shown : Str)
  deriving DecidableEq

/-- How the wait for a child ends: it is gone, its time is up, or something else is raised. -/
inductive Ending
  | returned (code : ℤ) (out err : Str)
  | expired (out err : Str)
  | raised (kind shown : Str)
  deriving DecidableEq

inductive Child
  | absent
  | live
  | dead
  deriving DecidableEq

/-- `_kill_group`. -/
def Child.kill : Child → Child
  | absent => absent
  | live | dead => dead

/-- Where a worker stands in `run_cli`: not begun; in `acquire`; in the slot, before it looks
at the event, before `Popen`, before `set`, in `communicate`, on its way out; or over. A slot
of no key is that of a disabled gate. -/
inductive Stage
  | ready
  | queued (key : Str)
  | holding (slot : Option Str)
  | spawning (slot : Option Str)
  | spawned (slot : Option Str)
  | running (slot : Option Str)
  | leaving (slot : Option Str) (run : CliRun)
  | ended (run : CliRun)
  deriving DecidableEq

def Stage.slot : Stage → Option Str
  | ready | queued _ | ended _ => none
  | holding slot | spawning slot | spawned slot | running slot | leaving slot _ => slot

/-- A call of `run_cli_async`: what it was called with, its worker and child, the event, and
what the handle knows. -/
structure Call where
  program : Str
  gate : Str
  capped : Bool
  stage : Stage
  child : Child
  cancelled : Bool
  recorded : Bool
  killed : Bool
  deriving DecidableEq

def Call.slot (c : Call) : Option Str := c.stage.slot

/-- What a run reports whose child could not be started. -/
def Call.unstarted (c : Call) : Popen → CliRun
  | .started => .discarded
  | .failed shown =>
    ⟨none, [], txt "failed to start " ++ c.program ++ txt ": " ++ shown, false, false⟩
  | .rejected shown =>
    ⟨none, [], ARGV_REJECTED_PREFIX ++ c.program ++ txt ": " ++ shown ++
      txt " — remove NUL bytes and unpaired surrogates from the question/context", false, false⟩

/-- What a run reports of its child. -/
def Call.report (c : Call) : Ending → CliRun
  | .returned code out err => ⟨some code, out, err, false, false⟩
  | .expired out err => ⟨none, out, err, true, false⟩
  | .raised kind shown =>
    ⟨none, [], (if c.capped then [] else c.program ++ txt " ") ++ txt "failed mid-run: " ++ kind ++
      txt ": " ++ shown, false, false⟩

structure Process where
  gates : Str → Option Semaphore
  calls : List Call

def Process.fresh : Process := ⟨fun _ => none, []⟩

inductive Move
  | call (program gate : Str) (capped : Bool)
  /-- `_semaphore`, with the environment as it is then. -/
  | enter (i : ℕ) (raw : Option Str)
  | acquire (i : ℕ)
  /-- `acquire` gives up: it finds no slot and its time is over. -/
  | busy (i : ℕ)
  | check (i : ℕ)
  | spawn (i : ℕ) (popen : Popen)
  /-- `_ProcHandle.set`. -/
  | publish (i : ℕ)
  /-- The child ends by itself. -/
  | exit (i : ℕ)
  | finish (i : ℕ) (ending : Ending)
  | release (i : ℕ)
  /-- The caller is cancelled and sets the event. -/
  | cancel (i : ℕ)
  /-- `_ProcHandle.kill`, by a caller that has set the event. -/
  | kill (i : ℕ)
  deriving DecidableEq

namespace Process

def set (s : Process) (i : ℕ) (c : Call) : Process := { s with calls := s.calls.set i c }

def withCall (s : Process) (i : ℕ) (f : Call → Process) : Process :=
  match s.calls[i]? with
  | some c => f c
  | none => s

/-- A semaphore's new state. -/
def withGate (s : Process) (key : Str) (sem : Semaphore) : Process :=
  { s with gates := Function.update s.gates key (some sem) }

/-- The first use of a binary fixes its number of slots. -/
def enter (s : Process) (i : ℕ) (c : Call) (limit : ℤ) : Process :=
  if limit ≤ 0 then s.set i { c with stage := .holding none }
  else
    let key := gateKey c.gate
    let s := s.set i { c with stage := .queued key }
    match s.gates key with
    | some _ => s
    | none => s.withGate key ⟨limit.toNat, limit.toNat⟩

/-- One go of the loop in `acquire`: with a slot, or without one when the time is over. -/
def acquire (s : Process) (i : ℕ) (c : Call) (key : Str) (expired : Bool) : Process :=
  match s.gates key with
  | some sem =>
    if sem.value = 0 then
      if expired then s.set i { c with stage := .ended ⟨none, [], [], true, true⟩ } else s
    else if expired then s
    else
      (s.set i { c with stage := .holding (some key) }).withGate key
        { sem with value := sem.value - 1 }
  | none => s

def release (s : Process) (i : ℕ) (c : Call) (slot : Option Str) (run : CliRun) : Process :=
  let s := s.set i { c with stage := .ended run }
  match slot with
  | none => s
  | some key =>
    match s.gates key with
    | some sem => s.withGate key { sem with value := sem.value + 1 }
    | none => s

/-- The call after a move that concerns nothing else. -/
def moved [Host] (c : Call) : Move → Option Call
  | .check _ =>
    match c.stage with
    | .holding slot => some { c with
        stage := if c.cancelled then .leaving slot .discarded else .spawning slot }
    | _ => none
  | .spawn _ popen =>
    match c.stage with
    | .spawning slot =>
      match popen with
      | .started => some { c with stage := .spawned slot, child := .live }
      | .failed _ | .rejected _ => some { c with stage := .leaving slot (c.unstarted popen) }
    | _ => none
  | .publish _ =>
    match c.stage with
    | .spawned slot => some <|
        if c.killed then { c with stage := .leaving slot .discarded, child := c.child.kill }
        else { c with stage := .running slot, recorded := true }
    | _ => none
  | .exit _ => if c.child = .live then some { c with child := .dead } else none
  | .finish _ ending =>
    match c.stage with
    | .running slot =>
      match ending with
      -- `communicate` returns once the child is gone
      | .returned .. =>
        if c.child = .live then none else some { c with stage := .leaving slot (c.report ending) }
      | .expired .. | .raised .. =>
        some { c with stage := .leaving slot (c.report ending), child := c.child.kill }
    | _ => none
  | .cancel _ => some { c with cancelled := true }
  | .kill _ =>
    if c.cancelled then
      some { c with killed := true, child := if c.recorded then c.child.kill else c.child }
    else none
  | .call .. | .enter .. | .acquire _ | .busy _ | .release _ => none

/-- A move that cannot be made where it comes leaves everything as it is. -/
def step [Host] (s : Process) (m : Move) : Process :=
  match m with
  | .call program gate capped =>
    { s with calls := s.calls ++ [⟨program, gate, capped, .ready, .absent, false, false, false⟩] }
  | .enter i raw => s.withCall i fun c => if c.stage = .ready then s.enter i c (limit raw) else s
  | .acquire i => s.withCall i fun c =>
    match c.stage with
    | .queued key => s.acquire i c key false
    | _ => s
  | .busy i => s.withCall i fun c =>
    match c.stage with
    | .queued key => s.acquire i c key true
    | _ => s
  | .release i => s.withCall i fun c =>
    match c.stage with
    | .leaving slot run => s.release i c slot run
    | _ => s
  | .check i | .spawn i _ | .publish i | .exit i | .finish i _ | .cancel i | .kill i =>
    s.withCall i fun c => (moved c m).elim s (s.set i)

def run [Host] (s : Process) (ms : List Move) : Process := ms.foldl step s

end Process

end AskFable.Gate

import AskFable.General.Journal
import AskFable.Lms.Catalog
import Mathlib.Data.Rat.Defs

/-!
# Loading a model

`_ensure_loaded_locked` and what it calls. The journal of a call lists its requests with
their answers, its claims and confirmations, and what the floor-context probe came back
with; the server's answers depend on how many entries came before, so that a server may
answer any sequence of requests in any way.
-/
namespace AskFable.Lms
open AskFable.Text AskFable.Journal

/-- Why a request failed, with the text `_request` makes of it. -/
inductive Failure
  | http (code : ℕ) (detail reason : Str)
  | network (reason : Str)
  | empty
  | unparseable

def Failure.text : Failure → Str
  | http code detail reason =>
    txt "HTTP " ++ natStr code ++ txt ": " ++ (if detail = [] then reason else detail)
  | network reason => txt "network error: " ++ reason
  | empty => txt "empty response from LM Studio"
  | unparseable => txt "unparseable response from LM Studio"

structure LoadInfo where
  context : Option ℤ
  loadTime : Option ℚ
  deriving DecidableEq

/-- The LM Studio server, the control page and the chats of this process as one call of
`_ensure_loaded_locked` meets them. `chatting n` is whether a chat is in flight on the key
that the `n`-th step of the call claims; `polls n` is how many times the wait begun at step
`n` reads the catalog again before its time is up. -/
structure World where
  monitors : Bool
  gpu : Gpu
  models : ℕ → Option (List Entry)
  load : ℕ → Except Failure LoadInfo
  unload : ℕ → Option Failure
  chatting : ℕ → Bool
  polls : ℕ → ℕ

/-- An instance to be unloaded: its model, its id, the window it was last seen with, and
whether the floor-context probe loaded it. -/
structure Victim where
  key : Str
  instanceId : Str
  context : ℤ
  floor : Bool
  deriving DecidableEq

inductive Event
  | read
  | load (model : Str) (context : ℤ) (err : Option Str)
  | claim (key : Str) (claimed : Bool)
  | unload (v : Victim)
  | gone (v : Victim)
  | appeared (key : Str) (ok : Bool)
  | probed (proven : Bool) (why : Str)
  deriving DecidableEq

inductive Kind
  | network_error
  | model_not_found
  | context_too_small
  | busy
  | unload_failed
  | load_failed
  | model_too_large
  deriving DecidableEq

inductive CrashProbe
  | loaded_at_floor
  | failed_at_floor
  | not_probed
  deriving DecidableEq

structure ResidentInfo where
  model : Str
  size : Option ℤ
  context : ℤ
  deriving DecidableEq

/-- `_unload_offer`, but for its constant fields. -/
structure UnloadOffer where
  reason : Str
  resident : List ResidentInfo
  gpu : Option Gpu
  deriving DecidableEq

structure Meta where
  unloadOffer : Option UnloadOffer
  gpu : Option Gpu
  crashProbe : Option CrashProbe
  contextReduced : Option (ℤ × ℤ)
  deriving DecidableEq

def Meta.empty : Meta := ⟨none, none, none, none⟩

/-- `_LoadOutcome`; its `kind` is none where the source's is the empty text. -/
structure LoadOutcome where
  kind : Option Kind := none
  detail : Str := []
  model : Str := []
  contextLength : ℤ := 0
  swapped : Bool := false
  loadedNow : Bool := false
  unloaded : List Str := []
  displaced : List Str := []
  displacedUnknown : Bool := false
  loadTime : Option ℚ := none
  info : Meta := Meta.empty
  deriving DecidableEq

def LoadOutcome.ok (o : LoadOutcome) : Bool := o.kind.isNone

variable (site : Site) (w : World)

/-! ### Requests -/

def modelsEntries : Proc Event (Option (List Entry)) := do
  let n ← now
  tell .read
  pure (w.models n)

/-- `_load_instance`; a window of 0 is left out of the request. -/
def loadInstance (model : Str) (context : ℤ) : Proc Event (Except Str LoadInfo) := do
  let n ← now
  match w.load n with
  | .ok info =>
    tell (.load model context none)
    pure (.ok info)
  | .error failure =>
    tell (.load model context (some failure.text))
    pure (.error failure.text)

def unloadInstance (v : Victim) : Proc Event (Option Str) := do
  let n ← now
  tell (.unload v)
  pure ((w.unload n).map Failure.text)

/-- Entering `_unload_claim`. -/
def unloadClaim (key : Str) : Proc Event Bool := do
  let n ← now
  tell (.claim key (!w.chatting n))
  pure (!w.chatting n)

/-- `_wait_until`, where the predicate reads the catalog. -/
def waitUntil (predicate : List Entry → Bool) : ℕ → Proc Event Bool
  | 0 => do
    let models ← modelsEntries w
    pure (models.elim false predicate)
  | n + 1 => do
    let models ← modelsEntries w
    if models.elim false predicate then pure true else waitUntil predicate n

def waitLoaded (key : Str) : Proc Event Bool := do
  let n ← now
  let ok ← waitUntil w (isLoaded site · key) (w.polls n)
  tell (.appeared key ok)
  pure ok

def confirmedContext (key : Str) : Proc Event ℤ := do
  let models ← modelsEntries w
  pure ((models.bind (findModel site · key)).elim 0 Entry.window)

def isGone (instanceId : Str) (models : List Entry) : Bool :=
  !models.any fun m => m.instanceId.getD [] = instanceId && m.loaded

/-- `_unload_and_wait`. -/
def unloadAndWait (v : Victim) : Proc Event (Option Str) := do
  match ← unloadInstance w v with
  | some err => pure (some (txt "could not unload " ++ v.key ++ txt ": " ++ err))
  | none =>
    let n ← now
    if ← waitUntil w (isGone v.instanceId) (w.polls n) then
      tell (.gone v)
      pure none
    else
      pure (some (v.key ++ txt " did not unload within " ++ site.unloadWait ++
        txt "s (still resident; raise ASK_FABLE_LMSTUDIO_UNLOAD_WAIT or unload it manually)"))

/-- `_probe_crash_memory`. -/
def probeCrashMemory (key : Str) : Proc Event (Bool × Str) := do
  match ← loadInstance w key FLOOR_CONTEXT with
  | .error err =>
    tell (.probed false err)
    pure (false, err)
  | .ok _ =>
    let models ← modelsEntries w
    let entry := findModel site (models.getD []) key
    let inst := (entry.bind (·.instanceId)).getD key
    if ← unloadClaim w key then
      match ← unloadAndWait site w ⟨key, inst, FLOOR_CONTEXT, true⟩ with
      | some uerr =>
        let why := key ++ txt " loaded at floor context but could not be freed again: " ++ uerr
        tell (.probed false why)
        pure (false, why)
      | none =>
        tell (.probed true [])
        pure (true, [])
    else
      let why := key ++ txt " is answering a chat — cannot run the memory probe now"
      tell (.probed false why)
      pure (false, why)

/-- `_restore`: the keys that could not be reloaded. -/
def restore : List (Str × ℤ) → Proc Event (List Str)
  | [] => pure []
  | (key, context) :: rest => do
    let r ← loadInstance w key context
    let failed ← restore rest
    pure (match r with | .ok _ => failed | .error _ => key :: failed)

def restoreClause (unloaded : List (Str × ℤ)) : Proc Event Str := do
  let failed ← restore w unloaded.reverse
  if failed = [] then pure (txt "; the unloaded model(s) were restored")
  else pure (txt "; could not restore " ++ joined failed)

def names (unloaded : List (Str × ℤ)) : Str := joined (unloaded.map Prod.fst)

def abandonSwap (unloaded : List (Str × ℤ)) (kind : Kind) (detail model : Str) :
    Proc Event LoadOutcome := do
  if unloaded = [] then pure { kind := kind, detail := detail, model := model }
  else
    let clause ← restoreClause w unloaded
    pure {
      kind := kind
      detail := detail ++ txt "; " ++ names unloaded ++
        txt " had already been unloaded for this swap" ++ clause
      model := model
      unloaded := unloaded.map Prod.fst }

/-! ### The decision -/

def notFoundOutcome (models : List Entry) (model : Str) : LoadOutcome :=
  let suggestions := suggest site models model
  let available := (models.filter isChat).map (·.key)
  { kind := some .model_not_found
    detail := txt "no LM Studio model matching " ++ site.repr model ++
      (if suggestions = [] then [] else txt " — did you mean " ++ joined suggestions ++ txt "?") ++
      txt " (available: " ++ (if available = [] then txt "none" else joined available) ++ txt ")"
    model := model }

def unreachable (model : Str) : LoadOutcome :=
  { kind := some .network_error
    detail := txt "LM Studio unreachable at " ++ site.baseUrl ++
      txt " (is the server running and ASK_FABLE_LMSTUDIO_BASE_URL right?)"
    model := model }

def unloadOffer (reason : Str) (resident : List ResidentInfo) : UnloadOffer := ⟨reason, resident, none⟩

def residentInfo (models : List Entry) (snapshot : List Resident) : List ResidentInfo :=
  snapshot.map fun r => ⟨r.key, (models.reverse.find? (·.key = r.key)).bind (·.size), r.context⟩

/-- What settles the call before the server is asked for anything but its catalog. -/
def refusal (entry : Entry) (est : ℤ) : Option LoadOutcome :=
  let maxContext := entry.maxContext.getD 0
  let needed := neededContext est
  if isChat entry = false then
    some {
      kind := some .model_not_found
      detail := entry.key ++ txt " is a " ++ (if entry.type = [] then txt "non-chat" else entry.type) ++
        txt " model, not a chat model"
      model := entry.key }
  else if maxContext ≠ 0 ∧ maxContext < needed then
    some {
      kind := some .context_too_small
      detail := txt "prompt is ~" ++ intStr est ++ txt " tokens but " ++ entry.key ++
        txt " maxes out at " ++ intStr maxContext ++ txt "; split the question or pack less context"
      model := entry.key }
  else if contextCeiling site ≠ 0 ∧ contextCeiling site < needed then
    some {
      kind := some .context_too_small
      detail := txt "prompt is ~" ++ intStr est ++ txt " tokens but this host caps the context at " ++
        intStr (contextCeiling site) ++
        txt " (lmstudio_context_ceilings); split the question, pack less context, or run " ++
        txt "this model where a larger window is allowed"
      model := entry.key }
  else none

def tooSmallResident (entry : Entry) (est want : ℤ) : LoadOutcome :=
  { kind := some .context_too_small
    detail := entry.key ++ txt " is loaded at " ++ intStr entry.window ++
      txt " tokens but the prompt needs ~" ++ intStr est ++ txt "+" ++ intStr MIN_OUTPUT_TOKENS ++
      txt "; unload it and re-ask (it will load at the needed window), or set lmstudio_context=" ++
      intStr want ++ txt " (ASK_FABLE_LMSTUDIO_CONTEXT) and lmstudio_swap=auto to reload it"
    model := entry.key
    info := { Meta.empty with
      unloadOffer := some (unloadOffer
        (txt "the resident instance's context is too small for this prompt")
        [⟨entry.key, entry.size, entry.window⟩]) } }

/-- The window an outcome reports: the one read back, else the one the load echoed, else
the one asked for. -/
def windowOf (confirmed : ℤ) (info : LoadInfo) (want : ℤ) : ℤ :=
  if confirmed ≠ 0 then confirmed
  else if info.context.getD 0 ≠ 0 then info.context.getD 0
  else want

def reloadFailed (key err : Str) (want loaded : ℤ) (lost : List Str) : LoadOutcome :=
  { kind := some .load_failed
    detail := txt "could not reload " ++ key ++ txt " at " ++ intStr want ++ txt ": " ++ err ++
      (if lost ≠ [] then txt " (it was unloaded and could not be restored)"
      else txt " (it was restored at its previous " ++ intStr loaded ++ txt "-token context)")
    model := key }

/-- The same model with a bigger window: unload and reload. -/
def reload (entry : Entry) (want : ℤ) : Proc Event LoadOutcome := do
  let key := entry.key
  if ← unloadClaim w key then
    match ← unloadAndWait site w ⟨key, entry.inst, entry.window, false⟩ with
    | some err => pure { kind := some .unload_failed, detail := err, model := key }
    | none =>
      match ← loadInstance w key want with
      | .error err =>
        let lost ← restore w [(key, entry.window)]
        pure (reloadFailed key err want entry.window lost)
      | .ok info =>
        if ← waitLoaded site w key then
          let confirmed ← confirmedContext site w key
          pure {
            model := key
            contextLength := windowOf confirmed info want
            swapped := true
            loadedNow := true
            unloaded := [key]
            loadTime := info.loadTime }
        else
          pure {
            kind := some .load_failed
            detail := key ++ txt " reload returned but it never appeared as loaded"
            model := key }
  else
    pure {
      kind := some .busy
      detail := key ++ txt " is answering another ask_lms call; retry shortly"
      model := key }

/-- What the loads made before anything is unloaded have shown. -/
structure Attempt where
  result : Except Str LoadInfo
  memoryProven : Bool
  crashed : Bool
  crashProbe : Option CrashProbe
  contextReduced : Option (ℤ × ℤ)

/-- The reading of the last error, with the floor-context probe where it is ambiguous. -/
def classify (key err : Str) (attempted : ℤ) : Proc Event Attempt := do
  let memory := looksMemory site err
  let crashed := looksEngineCrash site err
  if crashed && !memory then
    if FLOOR_CONTEXT < attempted then
      let (proven, detail) ← probeCrashMemory site w key
      pure {
        result := .error (if proven then err else err ++ txt "; floor-context probe: " ++ detail)
        memoryProven := proven || looksMemory site detail
        crashed := crashed
        crashProbe := some (if proven then .loaded_at_floor else .failed_at_floor)
        contextReduced := none }
    else pure ⟨.error err, memory, crashed, some .not_probed, none⟩
  else pure ⟨.error err, memory, crashed, none, none⟩

/-- The load, and the one with a smaller window. -/
def firstLoads (key : Str) (want needed : ℤ) : Proc Event Attempt := do
  match ← loadInstance w key want with
  | .ok info => pure ⟨.ok info, false, false, none, none⟩
  | .error err =>
    let memory := looksMemory site err
    let crashed := looksEngineCrash site err
    if memory || crashed then
      let needed := min want needed
      if needed < want then
        match ← loadInstance w key needed with
        | .ok info => pure ⟨.ok info, memory, crashed, none, some (want, needed)⟩
        | .error err => classify site w key err needed
      else classify site w key err want
    else pure ⟨.error err, memory, crashed, none, none⟩

/-- Residents are vacated one at a time, with a load after each. The answer is an outcome
where the swap is given up, else the last load's result and what was unloaded. -/
def vacate (key : Str) (want : ℤ) : List Resident → List (Str × ℤ) → Except Str LoadInfo →
    Proc Event (LoadOutcome ⊕ Except Str LoadInfo × List (Str × ℤ))
  | [], unloaded, result => pure (.inr (result, unloaded))
  | _ :: _, unloaded, .ok info => pure (.inr (.ok info, unloaded))
  | r :: rest, unloaded, .error err => do
    if looksMemory site err || looksEngineCrash site err then
      if ← unloadClaim w r.key then
        match ← unloadAndWait site w ⟨r.key, r.instanceId, r.context, false⟩ with
        | some uerr =>
          let o ← abandonSwap w unloaded .unload_failed uerr key
          pure (.inl o)
        | none =>
          let result ← loadInstance w key want
          vacate key want rest (unloaded ++ [(r.key, r.context)]) result
      else
        let o ← abandonSwap w unloaded .busy (r.key ++
          txt " is answering another ask_lms call, so it will not be unloaded to fit " ++ key ++
          txt "; retry shortly") key
        pure (.inl o)
    else pure (.inr (.error err, unloaded))

def optInt : Option ℤ → Str
  | some n => intStr n
  | none => txt "None"

def sizeMib (entry : Entry) : ℤ := entry.size.getD 0 / (1024 * 1024)

def modelTooLarge (entry : Entry) (gpu : Gpu) : LoadOutcome :=
  { kind := some .model_too_large
    detail := entry.key ++ txt " needs ~" ++ intStr (sizeMib entry + ROOM_HEADROOM_MIB) ++
      txt " MiB (" ++ intStr (sizeMib entry) ++ txt " MiB weights + " ++ intStr ROOM_HEADROOM_MIB ++
      txt " MiB headroom) but the GPU has only " ++ optInt gpu.total ++
      txt " MiB total — unloading a resident cannot make it fit; pick a smaller model or quantization"
    model := entry.key
    info := { Meta.empty with gpu := some gpu } }

def noRoom (models : List Entry) (residents : List Resident) (entry : Entry) (gpu : Gpu) :
    LoadOutcome :=
  { kind := some .load_failed
    detail := txt "not enough free VRAM for " ++ entry.key ++ txt ": ~" ++
      intStr (sizeMib entry + ROOM_HEADROOM_MIB) ++ txt " MiB needed (model + " ++
      intStr ROOM_HEADROOM_MIB ++ txt " MiB headroom), " ++ optInt gpu.free ++
      txt " MiB free — blocking: " ++ joined (residents.map (·.key)) ++
      txt "; unload one and retry, or set lmstudio_swap=auto"
    model := entry.key
    info := { Meta.empty with
      unloadOffer := some { unloadOffer (txt ("the free VRAM reported by the control page cannot " ++
        "fit this model with headroom")) (residentInfo models residents) with gpu := some gpu } } }

def probeClause : Option CrashProbe → Str
  | some .loaded_at_floor => txt "; a " ++ intStr FLOOR_CONTEXT ++
      txt ("-token load of the same model succeeded, so the failure is memory-bound, not a bad " ++
        "file")
  | some .failed_at_floor => txt ("; the same model also failed at floor context, so the file " ++
      "itself looks broken — nothing was unloaded")
  | some .not_probed => txt ("; the prompt already needs the minimum window, so no smaller probe " ++
      "was possible — nothing was unloaded")
  | none => []

/-- No load went through and nothing was unloaded. -/
def loadFailed (models : List Entry) (residents : List Resident) (key err : Str) (a : Attempt) :
    LoadOutcome :=
  let offered := residents ≠ [] ∧ a.memoryProven = true ∧ swapPolicy site ≠ .auto
  { kind := some .load_failed
    detail := txt "could not load " ++ key ++ txt ": " ++ err ++ probeClause a.crashProbe ++
      (if offered then txt "; resident: " ++ joined (residents.map (·.key)) ++
        txt " — unload one and retry, or set lmstudio_swap=auto"
      else [])
    model := key
    info := { Meta.empty with
      unloadOffer := if offered then
          some (unloadOffer (txt "a different model is resident and this load did not fit")
            (residentInfo models residents))
        else none
      crashProbe := a.crashProbe } }

/-- Residents were unloaded and the load still failed. -/
def swapFailed (key err : Str) (unloaded : List (Str × ℤ)) : Proc Event LoadOutcome := do
  let clause ← restoreClause w unloaded
  pure {
    kind := some .load_failed
    detail := txt "could not load " ++ key ++ txt " after unloading " ++ names unloaded ++ txt ": " ++
      err ++ clause
    model := key
    unloaded := unloaded.map Prod.fst }

/-- A load was accepted: it is waited for, and residents that vanished are looked for. -/
def confirmLoad (key : Str) (want : ℤ) (residents : List Resident) (a : Attempt)
    (unloaded : List (Str × ℤ)) (info : LoadInfo) : Proc Event LoadOutcome := do
  if ← waitLoaded site w key then
    let after ← modelsEntries w
    let displaced := match after with
      | some models =>
        let resident := (models.filter fun m => m.loaded && isChat m).map (·.key)
        (residents.map (·.key)).filter fun k => !resident.contains k && !(unloaded.map Prod.fst).contains k
      | none => []
    let confirmed ← confirmedContext site w key
    pure {
      model := key
      contextLength := windowOf confirmed info want
      swapped := unloaded ≠ []
      loadedNow := true
      unloaded := unloaded.map Prod.fst
      displaced := displaced
      displacedUnknown := after.isNone
      loadTime := info.loadTime
      info := { Meta.empty with
        contextReduced := a.contextReduced
        crashProbe := a.crashProbe } }
  else
    pure {
      kind := some .load_failed
      detail := key ++ txt " load returned but it never appeared as loaded"
      model := key }

/-- Who is resident when it comes to unloading: a crashed load can leave the list stale. -/
def currentResidents (residents : List Resident) (crashed : Bool) : Proc Event (List Resident) := do
  if crashed then
    let fresh ← modelsEntries w
    pure (fresh.elim residents residentSnapshot)
  else pure residents

/-- Unloading for room, and how the call ends after it. -/
def swap (models : List Entry) (key : Str) (want : ℤ) (residents : List Resident) (a : Attempt)
    (err : Str) : Proc Event LoadOutcome := do
  let residents ← currentResidents w residents a.crashed
  match ← vacate site w key want residents [] (.error err) with
  | .inl o => pure o
  | .inr (.ok info, unloaded) => confirmLoad site w key want residents a unloaded info
  | .inr (.error err, unloaded) =>
    if unloaded ≠ [] then swapFailed w key err unloaded
    else pure (loadFailed site models residents key err a)

/-- The model is not loaded: a load adds it to what is resident. -/
def loadBeside (models : List Entry) (entry : Entry) (est want : ℤ) : Proc Event LoadOutcome := do
  let residents := residentSnapshot models
  let gpu := if w.monitors then w.gpu else Gpu.absent
  let verdict := if w.monitors then roomVerdict entry.size gpu else .unknown
  if verdict = .tooLarge then pure (modelTooLarge entry gpu)
  else if verdict = .needsRoom ∧ residents ≠ [] ∧ swapPolicy site ≠ .auto then
    pure (noRoom models residents entry gpu)
  else
    let a ← firstLoads site w entry.key want (neededContext est)
    match a.result with
    | .ok info => confirmLoad site w entry.key want residents a [] info
    | .error err =>
      if a.memoryProven = true ∧ residents ≠ [] ∧ swapPolicy site = .auto then
        swap site w models entry.key want residents a err
      else pure (loadFailed site models residents entry.key err a)

/-- `_ensure_loaded_locked`. -/
def ensureLoadedLocked (model : Str) (est : ℤ) : Proc Event LoadOutcome := do
  match ← modelsEntries w with
  | none => pure (unreachable site model)
  | some models =>
    match findModel site models model with
    | none => pure (notFoundOutcome site models model)
    | some entry =>
      match refusal site entry est with
      | some o => pure o
      | none =>
        let want := desiredContext site est (entry.maxContext.getD 0)
        if entry.loaded then
          if entry.window = 0 ∨ neededContext est ≤ entry.window then
            pure { model := entry.key, contextLength := entry.window }
          else if swapPolicy site ≠ .auto then pure (tooSmallResident entry est want)
          else reload site w entry want
        else loadBeside site w models entry est want

end AskFable.Lms

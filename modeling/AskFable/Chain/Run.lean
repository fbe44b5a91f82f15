import AskFable.Debate.Run

/-!
# A chain

`_chain` after its guard and its cache lookup: the stages one after the other, the stand-in for
a last stage that failed, and the payload. The results of the models come as a list; where it
ends, the wall-clock cap fires.
-/
namespace AskFable.Chain
open AskFable.Text AskFable.Python AskFable.Debate AskFable.Extract

inductive Role
  | drafter
  | critic
  | synthesize
  deriving DecidableEq

/-- A stage that ran, its answer split into prose and sidecar. -/
structure Step where
  key : Str
  role : Role
  res : Result
  prose : Str
  sidecar : Option Sidecar.Fields

def Step.isOk (t : Step) : Bool := t.res.status = .ok

/-- `is_partial`. -/
def Step.isPartial (t : Step) : Bool := t.res.kind = txt "truncated"

/-- What is fixed before the first stage: the recognized stages, the tokens that name no model,
the cap in seconds as the error text shows it, and what is known of the models. -/
structure Setup where
  selected : List Str
  unknown : List Str
  cap : Str
  label : Str → Str
  fableDisabled : Bool
  fableModel : Str

/-- `requested`. -/
def Setup.requested (s : Setup) : ℕ := s.selected.length + s.unknown.length

/-- A row of `stages`; a time-out does not say which were cut off. -/
structure StageRow where
  stage : ℕ
  model : Str
  role : Role
  status : Status
  cutOff : Bool
  recommendation : Option Str
  confidence : Option Str

structure Payload where
  pipeline : List Str
  answer : Str
  answeredBy : Str
  stages : List StageRow
  drift : List Str
  materialDrift : Bool
  answered : ℕ
  requested : ℕ
  fallback : Option Str
  /-- The models whose ok stage was cut off. -/
  cutOff : List Str
  degraded : Bool
  unknown : List Str
  thinking : Str
  /-- Whether the payload was put in the cache. -/
  cached : Bool

inductive Outcome
  | refused (text : Str)
  | error (kind detail : Str) (unknown : List Str)
  | timedOut (detail : Str) (pipeline : List Str) (stages : List StageRow) (answered requested : ℕ)
      (unknown : List Str)
  | answered (p : Payload)

def row (cutOff : Bool) (i : ℕ) (t : Step) : StageRow :=
  ⟨i + 1, t.res.model, t.role, t.res.status, cutOff && t.isPartial,
    t.sidecar.bind (·.recommendation), t.sidecar.bind (·.confidence)⟩

/-- `_chain_drift`. -/
def chainDrift (recs : List (Option Str)) : List Str × Bool :=
  let trail := recs.filterMap fun r => r.filter (· ≠ [])
  (trail, trail.contains (txt "apply") && trail.contains (txt "reject"))

/-- Who a stage is: the first to answer drafts, the last stage synthesizes. -/
def roleOf (prior : List Step) (isFinal : Bool) : Role :=
  if prior.all (fun t => !t.isOk) = true then .drafter
  else if isFinal then .synthesize
  else .critic

section
variable [Host] (s : Setup)

/-- The stages of the keys, after those that ran; whether all of them came to run. -/
def runStages : List Str → List Step → List Result → Except JsonText.LoadError (List Step × Bool)
  | [], steps, _ => .ok (steps, true)
  | _ :: _, steps, [] => .ok (steps, false)
  | key :: keys, steps, res :: rest =>
    let role := roleOf steps keys.isEmpty
    (if res.status = .ok then Sidecar.extract res.text else .ok (res.text, none)).bind
      fun (prose, sc) => runStages keys (steps ++ [⟨key, role, res, prose, sc⟩]) rest

/-- The answer, who gave it, its reasoning, and what it stands in for. -/
structure Head where
  answer : Str
  answeredBy : Str
  thinking : Str
  fallback : Option Str

/-- The answer of a stage. -/
def Head.of (t : Step) (fallback : Option Str) : Head := ⟨t.prose, t.res.model, t.res.thinking, fallback⟩

/-- The last stage if it answered, else Fable's reconciliation of the others, else the last of
them; `rescue` is what Fable makes of it. -/
def head (last survivor : Step) (rescue : Result) : Except JsonText.LoadError Head :=
  if last.isOk = true then .ok (.of last none)
  else if s.fableDisabled = true then
    .ok (.of survivor
      (some (txt "used last surviving stage (final stage failed; Fable is disabled)")))
  else if rescue.status = .ok then
    (Sidecar.extract rescue.text).map fun (prose, _) =>
      ⟨prose, s.fableModel, rescue.thinking,
        some (txt "synthesized survivors (final stage failed)")⟩
  else
    .ok (.of survivor
      (some (txt "used last surviving stage (final stage + fallback synthesis failed)")))

def payload (steps : List Step) (h : Head) : Payload :=
  let oks := steps.filter Step.isOk
  let cutOff := (oks.filter Step.isPartial).map (·.res.model)
  let (trail, material) := chainDrift (oks.map fun t => t.sidecar.bind (·.recommendation))
  { pipeline := s.selected.map s.label
    answer := h.answer
    answeredBy := h.answeredBy
    stages := steps.mapIdx (row true)
    drift := trail
    materialDrift := material
    answered := oks.length
    requested := s.requested
    fallback := h.fallback
    cutOff := cutOff
    degraded := !cutOff.isEmpty
    unknown := s.unknown
    thinking := h.thinking
    cached := h.fallback.isNone && cutOff.isEmpty }

/-- The wall-clock cap fires after these stages. -/
def timedOut (steps : List Step) : Outcome :=
  .timedOut
    (txt "ask_chain exceeded ASK_FABLE_CHAIN_TIMEOUT=" ++ s.cap ++ txt "s at stage " ++
      natStr (steps.length + 1) ++ txt "/" ++ natStr s.selected.length)
    (s.selected.map s.label) (steps.mapIdx (row false)) (steps.filter Step.isOk).length s.requested
    s.unknown

/-- No stage answered. -/
def unanswered (steps : List Step) (last : Step) : Outcome :=
  match steps.find? (·.res.status = .refused) with
  | some t => .refused t.res.text
  | none =>
    let err := (steps.find? (·.res.status = .error)).getD last
    .error err.res.kind err.res.text s.unknown

/-- `_chain`. -/
def chain (replies : List Result) (rescue : Result) : Except JsonText.LoadError Outcome :=
  (runStages s.selected [] replies).bind fun (steps, complete) =>
    if complete = false then .ok (timedOut s steps)
    else
      match steps.getLast?, (steps.filter Step.isOk).getLast? with
      | none, _ => .ok (.error (txt "no_models") (txt "no recognized models in the pipeline") s.unknown)
      | some last, none => .ok (unanswered s steps last)
      | some last, some survivor =>
        (head s last survivor rescue).map fun h => .answered (payload s steps h)

/-- A stage of the keys ran for each of the results. -/
theorem runStages_spec {keys : List Str} {steps out : List Step} {replies : List Result}
    (h : runStages keys steps replies = .ok (out, true)) :
    out.map Step.key = steps.map Step.key ++ keys ∧
      out.map Step.res = steps.map Step.res ++ replies.take keys.length := by
  induction keys generalizing steps replies with
  | nil =>
    obtain ⟨rfl, -⟩ := Prod.mk.inj (Except.ok.inj h)
    simp
  | cons key keys ih =>
    cases replies with
    | nil => exact nomatch (Prod.mk.inj (Except.ok.inj h)).2
    | cons res rest =>
      rw [runStages] at h
      cases hparts : (if res.status = .ok then Sidecar.extract res.text else .ok (res.text, none)) with
      | error e =>
        rw [hparts] at h
        nomatch h
      | ok parts =>
        rw [hparts] at h
        obtain ⟨hkeys, hres⟩ := ih h
        simp [hkeys, hres]

end

end AskFable.Chain

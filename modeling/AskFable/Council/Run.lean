import AskFable.Council.Signals

/-!
# A council

`_council` after its guard, its cache lookup and its fan-out: the panel that answered, the
ladder of synthesizers, and the payload.
-/
namespace AskFable.Council
open AskFable.Text AskFable.Python AskFable.Debate AskFable.Extract

/-- `SYNTHESIZER`. -/
def SYNTHESIZER : Str := txt "fable"

/-- The results of the seats that ran, at least one, and the seats that did not: tokens
that name no model, and models the operator has disabled. -/
structure Panel where
  results : List OracleResult
  unknown : List Str
  disabled : List Str
  ran : results ≠ []

/-- `requested`. -/
def Panel.requested (panel : Panel) : ℕ := panel.results.length + panel.unknown.length

/-- `ok`. -/
def Panel.ok (panel : Panel) : List OracleResult := panel.results.filter OracleResult.isOk

/-- The synthesis block of a payload. -/
structure SynthesisBlock where
  requested : Str
  used : Option Str
  fallback : Option Str
  answerIsUnsynthesized : Bool

structure Payload where
  answer : Str
  answeredBy : Option Str
  synthesizer : Option Str
  synthesis : Option SynthesisBlock
  consensus : Consensus
  materialDisagreement : Bool
  consensusVotes : List (Str × ℕ)
  envelope : Envelope
  unknown : List Str
  disabled : List Str
  thinking : Str
  /-- Whether the payload was put in the cache. -/
  cached : Bool

inductive Outcome
  | refused (text : Str) (unknown disabled : List Str)
  | error (kind detail : Str) (unknown disabled : List Str)
  | answered (p : Payload)

section
variable [Host] (site : Site)

/-- The panelists with their prose and sidecars. -/
def extracted : List OracleResult → Except JsonText.LoadError
    (List (OracleResult × Str × Option Sidecar.Fields))
  | [] => .ok []
  | r :: rs =>
    (Sidecar.extract r.text).bind fun parts => (extracted rs).map fun rest => (r, parts) :: rest

/-- The sidecars that recommend something. -/
def voters (panel : List (OracleResult × Str × Option Sidecar.Fields)) : List Sidecar.Fields :=
  panel.filterMap fun x => x.2.2.filter (·.recommendation.isSome)

def recs (panel : List (OracleResult × Str × Option Sidecar.Fields)) : List Str :=
  (voters panel).filterMap (·.recommendation)

def confs (panel : List (OracleResult × Str × Option Sidecar.Fields)) : List (Option Str) :=
  (voters panel).map (·.confidence)

/-- `disabled_result`. -/
def disabledResult (key : Str) : Result where
  status := .error
  kind := txt "disabled"
  model := site.label key
  thinking := []
  text := site.label key ++ txt (" is disabled by the operator (ASK_FABLE_DISABLED); " ++
    "re-enable it with the configure_disabled tool or by editing the denylist")

/-- `_synthesize`; `run` is what each model would make of the synthesis. -/
def synthesize (run : Str → Result) (key : Str) : Result :=
  if site.disabled key then disabledResult site key else run key

/-- What the ladder of synthesizers ends with: the result, and who made it as a stand-in. -/
structure Synthesis where
  result : Result
  used : Str
  fallback : Option Str

/-- The requested synthesizer where it can be reached, and Fable after it. -/
def ladder (run : Str → Result) (synthKey : Str) : Synthesis :=
  let reachable := synthKey = SYNTHESIZER ∨ site.available synthKey
  let first := if reachable then synthKey else SYNTHESIZER
  let res := synthesize site run first
  if res.status ≠ .ok ∧ first ≠ SYNTHESIZER then
    ⟨synthesize site run SYNTHESIZER, SYNTHESIZER, some (txt "fable")⟩
  else ⟨res, first, if reachable then none else some (txt "fable")⟩

/-- The panel's agreement, of one lab at most partial. -/
def rated (ok : List OracleResult) (requested : ℕ)
    (panel : List (OracleResult × Str × Option Sidecar.Fields)) : Consensus × Bool :=
  let (agreement, material) :=
    consensus (recs panel) (some ok.length) (confs panel) (some requested)
  (if agreement = .strong ∧ distinctLabs site (ok.map (·.key)) < 2 then .partialAgreement
    else agreement, material)

/-- `cut_off`: the models whose answer was cut off, the synthesizer's last. -/
def cutOffModels (ok : List OracleResult) (synth : Result) : List Str :=
  (ok.filter fun r => isCutOff r.toResult).map (·.model) ++
    if isCutOff synth then [synth.model] else []

/-- One answer is returned as it is. -/
def lone (panel : Panel) (r : OracleResult) : Except JsonText.LoadError Payload :=
  (Sidecar.extract r.text).map fun (prose, _) =>
    { answer := prose
      answeredBy := some r.model
      synthesizer := none
      synthesis := none
      consensus := .unknown
      materialDisagreement := false
      consensusVotes := []
      envelope := councilEnvelope site [r] panel.requested none (some .unknown) false []
      unknown := panel.unknown
      disabled := panel.disabled
      thinking := r.thinking
      cached := false }

/-- Two answers or more are merged. -/
def merged (panel : Panel) (synthKey : Str) (run : Str → Result) (first : OracleResult)
    (others : List OracleResult) : Except JsonText.LoadError Payload :=
  let ok := first :: others
  (extracted ok).bind fun votes =>
    let (agreement, material) := rated site ok panel.requested votes
    let synth := ladder site run synthKey
    let made := synth.result.status = .ok
    let cutOff := cutOffModels ok synth.result
    let synthLabel := if made then some (site.label synth.used) else none
    (Sidecar.extract (if made then synth.result.text else first.text)).map fun (prose, _) =>
      { answer := prose
        answeredBy := none
        synthesizer := synthLabel
        synthesis := some
          { requested := synthKey
            used := if made then some synth.used else none
            fallback := if made then synth.fallback else some (txt "first_answer")
            answerIsUnsynthesized := !made }
        consensus := agreement
        materialDisagreement := material
        consensusVotes := voteVector (recs votes) panel.requested
        envelope := councilEnvelope site ok panel.requested synthLabel (some agreement) material
          cutOff
        unknown := panel.unknown
        disabled := panel.disabled
        thinking := if made then synth.result.thinking else first.thinking
        cached := made && cutOff.isEmpty && !isCutOff synth.result }

/-- `_council`. -/
def council (panel : Panel) (synthKey : Str) (run : Str → Result) :
    Except JsonText.LoadError Outcome :=
  match panel.ok with
  | [] =>
    match panel.results.find? (·.status = .refused) with
    | some r => .ok (.refused r.text panel.unknown panel.disabled)
    | none =>
      let err := (panel.results.find? (·.status = .error)).getD (panel.results.head panel.ran)
      .ok (.error err.kind err.text panel.unknown panel.disabled)
  | [r] => (lone site panel r).map .answered
  | r :: rest => (merged site panel synthKey run r rest).map .answered

end

end AskFable.Council

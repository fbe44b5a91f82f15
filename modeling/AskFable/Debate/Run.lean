import AskFable.Debate.Ledger
import AskFable.Extract.Blocks

/-!
# A debate

`_debate` after its guard and its cache lookup: the turns, the two early exits, the
adjudicator, and the closing function that makes the payload of one of the turns. The
replies of the models come as a list; where it ends, the wall-clock cap fires.
-/
namespace AskFable.Debate
open AskFable.Text AskFable.Python AskFable.Extract

inductive Status
  | ok
  | refused
  | error
  deriving DecidableEq

/-- `OracleResult`, as far as a debate reads it. -/
structure Result where
  status : Status
  kind : Str
  text : Str
  thinking : Str
  model : Str
  deriving DecidableEq

/-- A result with its text split; one that is not ok has neither sidecar nor ledger. -/
structure Reply where
  res : Result
  prose : Str
  sidecar : Option Sidecar.Fields
  ledger : Ledger
  unread : res.status ≠ .ok → prose = res.text ∧ sidecar = none ∧ ledger = none

/-- What `_debate_turn` makes of a result; a text nested past the reader's limit raises. -/
def debateTurn [Host] (res : Result) : Except JsonText.LoadError Reply :=
  if h : res.status = .ok then
    (Sidecar.extract res.text).bind fun (prose, sc) =>
      (DebateLedger.extract prose).map fun (prose, ledger) =>
        ⟨res, prose, sc, ledger, fun hne => absurd h hne⟩
  else .ok ⟨res, res.text, none, none, fun _ => ⟨rfl, rfl, rfl⟩⟩

inductive Role
  | propose
  | refute
  | revise
  | adjudicate
  deriving DecidableEq

structure Turn where
  role : Role
  reply : Reply

def Turn.isOk (t : Turn) : Bool := t.reply.res.status = .ok

/-- `is_partial`. -/
def Turn.isPartial (t : Turn) : Bool := t.reply.res.kind = txt "truncated"

inductive Resolution
  | conceded
  | converged
  | adjudicated
  | stalemate
  | adjudicatorUnavailable
  | degradedSingleCritic
  | degradedTimeout
  deriving DecidableEq

def Resolution.degraded : Resolution → Bool
  | .degradedSingleCritic | .degradedTimeout => true
  | _ => false

inductive Flag
  | degradedReason (why : Str)
  | ledgerUnparseable (role : Role)
  | adjudicationFailed (why : Str)
  | timedOutAfterTurns (n : ℕ)

/-- `kind or status`. -/
def Result.why (r : Result) : Str :=
  if r.kind ≠ [] then r.kind
  else
    match r.status with
    | .ok => txt "ok"
    | .refused => txt "refused"
    | .error => txt "error"

/-- `downgrade_confidence`. -/
def downgradeConfidence : Option Str → Option Str
  | some c =>
    if c = txt "high" then some (txt "medium")
    else if c = txt "medium" then some (txt "low")
    else some c
  | none => none

/-- What is fixed before the first turn: the two labels, the number of rounds, and the
wall-clock cap in seconds as the error text shows it. -/
structure Setup where
  proposer : Str
  opponent : Str
  rounds : ℕ
  cap : Str

/-- The debate block of a payload. -/
structure DebateBlock where
  pairing : Str × Str
  rounds : ℕ
  resolution : Resolution
  contestedRemaining : ℕ
  /-- The models of the ok turns, with what each recommended. -/
  drift : List (Role × Str × Option Str)
  lowEffort : Bool
  materialDisagreement : Bool
  decisiveArgument : Option Json
  flags : List Flag

structure TurnRow where
  role : Role
  model : Str
  status : Status
  cutOff : Bool
  recommendation : Option Str
  confidence : Option Str

structure Payload where
  answer : Str
  answeredBy : Str
  sidecar : Option Sidecar.Fields
  debate : DebateBlock
  turns : List TurnRow
  /-- The models whose ok answer was cut off. -/
  cutOff : List Str
  thinking : Str
  /-- Whether the payload was put in the cache. -/
  cached : Bool

inductive Outcome
  | refused (text : Str)
  | error (kind detail : Str)
  | decided (payload : Payload)

/-- What the exits of a debate hand to `finish`, beside the turn whose answer it is. -/
structure Verdict where
  resolution : Resolution
  openIds : List Str := []
  decisive : Option Json := none
  lowEffort : Bool := false
  flags : List Flag := []

def Resolution.unsettled : Resolution → Bool
  | .stalemate | .adjudicatorUnavailable | .degradedTimeout => true
  | _ => false

/-- A sidecar with its confidence one notch down. -/
def downgraded (sc : Sidecar.Fields) : Sidecar.Fields :=
  { sc with confidence := downgradeConfidence sc.confidence }

def row (t : Turn) : TurnRow :=
  ⟨t.role, t.reply.res.model, t.reply.res.status, t.isPartial,
    t.reply.sidecar.bind (·.recommendation), t.reply.sidecar.bind (·.confidence)⟩

/-- `finish`, for the answer of one of the turns. -/
def finish (s : Setup) (turns : List Turn) (best : Reply) (v : Verdict) : Payload :=
  let oks := turns.filter Turn.isOk
  let cutOff := (oks.filter Turn.isPartial).map (·.reply.res.model)
  { answer := best.prose
    answeredBy := best.res.model
    sidecar := if v.resolution.unsettled then best.sidecar.map downgraded else best.sidecar
    debate :=
      { pairing := (s.proposer, s.opponent)
        rounds := s.rounds
        resolution := v.resolution
        contestedRemaining := v.openIds.length
        drift := oks.map fun t =>
          (t.role, t.reply.res.model, t.reply.sidecar.bind (·.recommendation))
        lowEffort := v.lowEffort
        materialDisagreement :=
          v.resolution = .stalemate ∨ v.resolution = .adjudicated ∨
            v.resolution = .adjudicatorUnavailable ∨
            (v.resolution = .degradedTimeout ∧ v.openIds ≠ [])
        decisiveArgument := v.decisive.filter Json.truthy
        flags := v.flags }
    turns := turns.map row
    cutOff := cutOff
    thinking := best.res.thinking
    cached := !(v.resolution.degraded || v.resolution = .adjudicatorUnavailable || !cutOff.isEmpty) }

/-- The proposer's ok turns. -/
def own (turns : List Turn) : List Turn :=
  turns.filter fun t => (t.role = .propose || t.role = .revise) && t.isOk

section
variable [Host] (s : Setup)

/-- The wall-clock cap fires after these turns. -/
def timedOut (turns : List Turn) (stillOpen : List Str) : Outcome :=
  match (own turns).getLast? with
  | some best => .decided (finish s turns best.reply
      { resolution := .degradedTimeout
        openIds := stillOpen
        flags := [.timedOutAfterTurns turns.length] })
  | none => .error (txt "timeout") 
      (txt "ask_debate exceeded " ++ s.cap ++ txt "s before any turn answered")

/-- `adjudicate`: a ruling by the adjudicator, or else the best answer there is. `best` is
the proposer's latest ok turn, and `stillOpen` what a time-out here reports. -/
def adjudicate (turns : List Turn) (best : Reply) (stillOpen : List Str) (v : Verdict) :
    List Reply → Outcome
  | [] => timedOut s turns stillOpen
  | j :: _ =>
    let turns := turns ++ [⟨.adjudicate, j⟩]
    if j.res.status = .ok then
      .decided (finish s turns j
        { v with decisive := j.ledger.bind (Dict.get · (txt "decisive_argument")) })
    else
      .decided (finish s turns best
        { v with
          resolution := .adjudicatorUnavailable
          flags := v.flags ++ [.adjudicationFailed j.res.why] })

/-- Round two: the opponent's second pass over what is still open. -/
def rebut (p r v : Reply) (openIds : List Str) (lowEffort : Bool) : List Reply → Outcome
  | [] => timedOut s [⟨.propose, p⟩, ⟨.refute, r⟩, ⟨.revise, v⟩] openIds
  | rb :: rest =>
    let turns : List Turn := [⟨.propose, p⟩, ⟨.refute, r⟩, ⟨.revise, v⟩, ⟨.refute, rb⟩]
    let ruling (resolution : Resolution) := adjudicate s turns v openIds
      { resolution := resolution, openIds := openIds, lowEffort := lowEffort } rest
    if rb.res.status ≠ .ok ∨ rb.ledger = none then ruling .adjudicated
    else if stillContestedAfterRebut rb.ledger = [] then
      .decided (finish s turns v { resolution := .converged, lowEffort := lowEffort })
    else if isStalemate rb.ledger openIds then ruling .stalemate
    else ruling .adjudicated

/-- `recs_match`: both sides left a sidecar, with one recommendation. -/
def recsMatch (r v : Reply) : Bool :=
  match r.sidecar, v.sidecar with
  | some a, some b => a.recommendation = b.recommendation
  | _, _ => false

/-- The proposer answers the opponent's dispositions. -/
def revise (p r : Reply) (contested : List Str) (lowEffort : Bool) : List Reply → Outcome
  | [] => timedOut s [⟨.propose, p⟩, ⟨.refute, r⟩] contested
  | v :: rest =>
    let turns : List Turn := [⟨.propose, p⟩, ⟨.refute, r⟩, ⟨.revise, v⟩]
    if v.res.status ≠ .ok ∨ v.ledger = none then
      adjudicate s turns (if v.res.status = .ok then v else p) contested
        { resolution := .adjudicated
          openIds := contested
          lowEffort := lowEffort
          flags := if v.ledger = none then [.ledgerUnparseable .revise] else [] } rest
    else
      let openIds := openAfterRevise contested v.ledger
      if openIds = [] ∧ recsMatch r v then
        .decided (finish s turns v { resolution := .converged, lowEffort := lowEffort })
      else if openIds ≠ [] ∧ 2 ≤ s.rounds then rebut s p r v openIds lowEffort rest
      else adjudicate s turns v openIds
        { resolution := .adjudicated, openIds := openIds, lowEffort := lowEffort } rest

/-- The opponent disposes of the proposer's claims. -/
def refute (p : Reply) : List Reply → Outcome
  | [] => timedOut s [⟨.propose, p⟩] []
  | r :: rest =>
    let turns : List Turn := [⟨.propose, p⟩, ⟨.refute, r⟩]
    if r.res.status ≠ .ok then
      .decided (finish s turns p
        { resolution := .degradedSingleCritic, flags := [.degradedReason r.res.why] })
    else if r.ledger = none then
      adjudicate s turns p []
        { resolution := .adjudicated, flags := [.ledgerUnparseable .refute] } rest
    else
      let contested := contestedAfterRefute r.ledger
      let lowEffort := lowEffortOpposition r.ledger
      if contested = [] then
        .decided (finish s turns p { resolution := .conceded, lowEffort := lowEffort })
      else revise s p r contested lowEffort rest

/-- `_debate`. -/
def debate : List Reply → Outcome
  | [] => timedOut s [] []
  | p :: rest =>
    match p.res.status with
    | .refused => .refused p.res.text
    | .error => .error p.res.kind p.res.text
    | .ok => refute s p rest

end

end AskFable.Debate

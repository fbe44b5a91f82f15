import AskFable.Falsify.Ledger
import AskFable.Python.Regex

/-!
# The clerk

The orchestration of `ask_falsify`: what code does with the assertor's and the
falsifier's turns. Models, the sandboxed process and the judge are outside: what they
answered is an input here. A call that runs several snippets reads each outcome at
the place of the receipt (claim and receipt position) or of the attack it belongs to,
so two runs of the same code may differ.
-/
namespace AskFable.Falsify
open AskFable.Text AskFable.Python AskFable.Regex

/-! ### The sandbox -/

inductive RunStatus
  | ok
  | fail
  | timeout
  | disabled
  | unavailable
  | error
  deriving DecidableEq, Repr

structure SandboxResult where
  status : RunStatus
  returncode : Option ℤ
  stdout : Str
  stderr : Str

/-- What the spawned process did; no return code means the spawn failed. -/
structure CliRun where
  returncode : Option ℤ
  timedOut : Bool
  stdout : Str
  stderr : Str

/-- The operator's opt-in, the sandbox binary, the shown time limit, and the process
behind each snippet of one call. -/
structure Sandbox where
  enabled : Bool
  available : Bool
  timeoutShown : Str
  exec : ℕ × ℕ → Str → CliRun

def MAX_OUTPUT : ℕ := 8000

/-- Trim a stream to the limit keeping both ends. -/
def clipStream (text : Str) : Str :=
  if text.length ≤ MAX_OUTPUT then text
  else
    let head := MAX_OUTPUT / 2
    let tail := MAX_OUTPUT - head
    text.take head ++ txt "\n[… " ++ natStr (text.length - MAX_OUTPUT) ++
      txt " chars elided …]\n" ++ text.drop (text.length - tail)

def SETUP_PREFIXES : List Str := [txt "bwrap: ", txt "prlimit: "]

def EAGAIN : Str := txt "Resource temporarily unavailable"

/-- `s or fallback`. -/
def orText (s fallback : Str) : Str := if s = [] then fallback else s

def runPython (box : Sandbox) (place : ℕ × ℕ) (code : Str) : SandboxResult :=
  if !box.enabled then
    ⟨.disabled, none, [], txt "code execution is off (set ASK_FABLE_ALLOW_RUN=1)"⟩
  else if strip code = [] then ⟨.error, none, [], txt "empty snippet"⟩
  else if !box.available then
    ⟨.unavailable, none, [], txt "sandbox unavailable (bwrap not installed)"⟩
  else
    let run := box.exec place code
    let out := clipStream run.stdout
    let err := clipStream run.stderr
    if run.timedOut then
      ⟨.timeout, none, out, orText err (txt "timed out after " ++ box.timeoutShown ++ txt "s")⟩
    else
      match run.returncode with
      | none => ⟨.unavailable, none, out, orText err (txt "sandbox did not run")⟩
      | some rc =>
        if rc ≠ 0 ∧ (SETUP_PREFIXES.any (·.isPrefixOf (run.stderr.dropWhile isSpace)) ∨
            contains run.stderr EAGAIN) then
          ⟨.unavailable, some rc, out, orText err (txt "sandbox did not run")⟩
        else ⟨if rc = 0 then .ok else .fail, some rc, out, err⟩

def INCONCLUSIVE_MARKERS : List Str :=
  [txt "MemoryError", txt "ModuleNotFoundError", txt "can't start new thread", txt "Errno 12"]

inductive RunVerdict
  | pass
  | fail
  | inconclusive
  deriving DecidableEq, Repr

/-- A disabled or broken sandbox, a timeout or a missing module is inconclusive. -/
def runVerdict (box : Sandbox) (gate : Bool) (place : ℕ × ℕ) (code : Str) : RunVerdict :=
  if !gate then .inconclusive
  else
    let res := runPython box place code
    match res.status with
    | .disabled | .unavailable | .timeout | .error => .inconclusive
    | .fail => if INCONCLUSIVE_MARKERS.any (contains res.stderr) then .inconclusive else .fail
    | .ok => .pass

/-! ### The assertor's turn -/

section
variable [Host]

def turnRows (block : Option Json) (field : Str) : List Dict :=
  match block with
  | some (.obj items) => dictRows (Dict.get items field)
  | _ => []

/-- Stamp the author and strip any verdict the model wrote itself. -/
def stamp (author : Str) (r : Dict) : Dict :=
  let r := Dict.set r (txt "author") (.str author)
  Dict.set r (txt "receipts") (.arr ((scrubReceipts (Dict.get r (txt "receipts"))).map .obj))

/-- The clerk's verdict on one new receipt. -/
def verifyReceipt (corpus : Str) (gate : Bool) (box : Sandbox) (place : ℕ × ℕ)
    (r : Dict) : Dict :=
  if Dict.getIs r (txt "kind") (txt "cite") then
    Dict.set r (txt "ok") (.bool (citeSupported r corpus))
  else if Dict.getIs r (txt "kind") (txt "run") then
    let verdict := runVerdict box gate place (Dict.text r (txt "code"))
    let r := Dict.set r (txt "ok") (.bool (verdict == .pass))
    if verdict = .inconclusive then Dict.set r (txt "inconclusive") (.bool true) else r
  else r

/-- Verify the receipts past the first `held`; an earlier one keeps the verdict it
earned. -/
def verifyNew (corpus : Str) (gate : Bool) (box : Sandbox) (held i : ℕ) (c : Claim) : Claim :=
  { c with receipts := c.receipts.mapIdx fun j r =>
      if held ≤ j then verifyReceipt corpus gate box (i, j) r else r }

def heldReceipts (led : Ledger) (cid : Str) : ℕ :=
  (byId led cid).elim 0 fun c => c.receipts.length

/-- Verify what this turn added to the claims it had accepted. -/
def verifyAccepted (before : Ledger) (corpus : Str) (gate : Bool) (box : Sandbox)
    (accepted : List Str) (led : Ledger) : Ledger :=
  { led with claims := led.claims.mapIdx fun i c =>
      if c.id ∈ accepted then verifyNew corpus gate box (heldReceipts before c.id) i c else c }

def clerkAsserts (led : Ledger) (block : Option Json) (author corpus : Str) (gate : Bool)
    (box : Sandbox) : Ledger × List Dict :=
  let raws := (turnRows block (txt "claims")).map (stamp author)
  let (led', accepted, rejected) := applyAsserts led raws
  (verifyAccepted led corpus gate box accepted led', rejected)

/-! ### The falsifier's turn -/

/-- An accepted kill and the reputation it moves. -/
def landKill (led : Ledger) (targetId killer author domain : Str) (kind : Move)
    (roundNo : ℕ) : Ledger :=
  let led := recordKill led targetId killer kind true roundNo
  let led := bumpRep led killer domain .kills
  bumpRep led author domain .deaths

def orGeneral (domain : Str) : Str := if domain = [] then txt "general" else domain

/-- The claim a `contra` move registers. -/
def contraRaw (atk : Dict) (newId targetId killer domain quote : Str) : Dict :=
  [(txt "id", .str newId), (txt "author", .str killer),
    (txt "domain", Dict.getOr atk (txt "domain") (.str domain)),
    (txt "claim", Dict.getOr atk (txt "claim") (.str (txt "contradicts " ++ targetId))),
    (txt "receipts", .arr [.obj [(txt "kind", .str (txt "cite")), (txt "quote", .str quote),
      (txt "ok", .bool true)]])]

def contraMove (led : Ledger) (atk : Dict) (targetId killer author domain corpus : Str)
    (roundNo : ℕ) : Ledger :=
  let newId := strip (Dict.text atk (txt "new_id"))
  let quote := Dict.text atk (txt "quote")
  let present := !quote.isEmpty && contains corpus quote
  if newId ≠ [] ∧ present ∧ byId led newId = none then
    let (led', acc, _) := applyAsserts led [contraRaw atk newId targetId killer domain quote]
    if newId ∈ acc ∧ contraValid newId targetId led' then
      landKill (addContraEdge led' newId targetId) targetId killer author domain .contra roundNo
    -- the new claim stays registered although its edge was refused
    else recordKill led' targetId killer .contra false roundNo
  else recordKill led targetId killer .contra false roundNo

def runMove (led : Ledger) (atk : Dict) (targetId killer author domain : Str) (roundNo : ℕ)
    (gate : Bool) (box : Sandbox) (place : ℕ × ℕ) : Ledger :=
  match runVerdict box gate place (Dict.text atk (txt "code")) with
  | .fail => landKill led targetId killer author domain .run roundNo
  | .pass => recordKill led targetId killer .run false roundNo
  | .inconclusive => led

def challengeMove (led : Ledger) (target : Claim) (targetId killer author domain : Str)
    (roundNo : ℕ) : Ledger :=
  if compoundable target then recordKill led targetId killer .challenge false roundNo
  else landKill led targetId killer author domain .challenge roundNo

/-- The loop body of `_clerk_attacks`. -/
def clerkAttack (killer corpus : Str) (roundNo : ℕ) (gate : Bool) (box : Sandbox)
    (led : Ledger) (row : Dict × ℕ) : Ledger :=
  let (atk, place) := row
  let targetId := strip (Dict.text atk (txt "target"))
  match byId led targetId with
  | none => led
  | some target =>
    if target.status = .killed then led
    else
      let domain := orGeneral target.domain
      let move := (Dict.getOr atk (txt "move") (.str (txt "challenge"))).pyStr
      if move = txt "contra" then
        contraMove led atk targetId killer target.author domain corpus roundNo
      else if move = txt "run" then
        runMove led atk targetId killer target.author domain roundNo gate box (place, 0)
      else challengeMove led target targetId killer target.author domain roundNo

def clerkAttacks (led : Ledger) (block : Option Json) (killer corpus : Str) (roundNo : ℕ)
    (gate : Bool) (box : Sandbox) : Ledger :=
  (turnRows block (txt "attacks")).zipIdx.foldl (clerkAttack killer corpus roundNo gate box) led

/-! ### The metamorphic check -/

inductive Verdict
  | true
  | false
  | unsure
  deriving DecidableEq, Repr

def Verdict.token : Verdict → Str
  | .true => txt "TRUE"
  | .false => txt "FALSE"
  | .unsure => txt "UNSURE"

/-- `\bWORD\b`. -/
def wholeWord (w : Str) : Re := .seqs [.edge wordChar, .word w, .edge wordChar]

/-- The judge's one-word verdict; a negated affirmative is `FALSE`. -/
def parseVerdict (text : Str) : Verdict :=
  let up := Host.upper text
  let notTrue : Re := .seqs [.edge wordChar, .word (txt "NOT"), .atLeast (.set isSpace) 1,
    .word (txt "TRUE"), .edge wordChar]
  if found (wholeWord (txt "UNTRUE")) up || found notTrue up then .false
  else if found (wholeWord (txt "FALSE")) up then .false
  else if found (wholeWord (txt "UNSURE")) up then .unsure
  else if found (wholeWord (txt "TRUE")) up then .true
  else .unsure

/-- What the paraphraser and the cold judge answered for the claim at each place. -/
structure Metamorph where
  paraphrase : ℕ → Str → Option Str
  judge : ℕ → Str → Option Str

def metamorphReceipt (para : Str) (verdict : Verdict) : Dict :=
  [(txt "kind", .str (txt "metamorph")), (txt "stable", .bool (verdict == .true)),
    (txt "paraphrase", .str para), (txt "verdict", .str verdict.token),
    (txt "by", .str (txt "clerk"))]

def metamorphCheck (m : Metamorph) (i : ℕ) (claimText : Str) : Option Dict :=
  if strip claimText = [] then none
  else
    match m.paraphrase i claimText with
    | none => none
    | some para =>
      if para = [] then none
      else (m.judge i para).map fun reply => metamorphReceipt para (parseVerdict reply)

def clerkMetamorph (m : Metamorph) (led : Ledger) : Ledger :=
  { led with claims := led.claims.mapIdx fun i c =>
      if c.status ≠ .open ∨ compoundable c = true then c
      else if c.receipts.any (fun r => Dict.getIs r (txt "kind") (txt "metamorph") &&
          Dict.getIs r (txt "by") (txt "clerk")) then c
      else
        match metamorphCheck m i c.claim with
        | some r => { c with receipts := c.receipts ++ [r] }
        | none => c }

end

/-! ### Survivors and rounds -/

/-- Award a `survives` credit to the author of a claim that newly survived. -/
def creditSurvivor (after : Ledger) (cid : Str) : Ledger :=
  match byId after cid with
  | some c => bumpRep after c.author (orGeneral c.domain) .survives
  | none => bumpRep after [] (txt "general") .survives

def creditSurvivors (before after : Ledger) : Ledger :=
  ((survivedIds after).filter fun cid => !(survivedIds before).contains cid).foldl
    creditSurvivor after

structure Signature where
  rows : List (Str × Status × ℕ × ℕ)
  edges : ℕ
  deriving DecidableEq

def signature (led : Ledger) : Signature :=
  ⟨led.claims.map fun c => (c.id, c.status, c.attempts, c.receipts.length), led.edges.length⟩

def isFixpoint (prev curr : Ledger) : Bool := signature prev == signature curr

/-- What one assert and attack cycle reads from outside. -/
structure Round where
  assertBlock : Option Json
  author : Str
  corpus : Str
  gate : Bool
  assertBox : Sandbox
  metamorph : Option Metamorph
  attackBlock : Option Json
  killer : Str
  attackBox : Sandbox

section
variable [Host]

/-- The loop body of `_falsify` on the ledger. -/
def playRound (led : Ledger) (r : Round) : Ledger :=
  let before := { led with status := .active }
  let roundNo := before.round + 1
  let led := (clerkAsserts before r.assertBlock r.author r.corpus r.gate r.assertBox).1
  let led := match r.metamorph with
    | some m => clerkMetamorph m led
    | none => led
  let led := clerkAttacks led r.attackBlock r.killer r.corpus roundNo r.gate r.attackBox
  let led := resolve DEFAULT_K led
  let led := creditSurvivors before led
  { led with
    round := roundNo
    status := if isFixpoint before led then .fixpoint else .active }

/-- One operation on the ledger, with what it reads from outside. -/
inductive Call
  | asserts (block : Option Json) (author corpus : Str) (gate : Bool) (box : Sandbox)
  | metamorph (m : Metamorph)
  | attacks (block : Option Json) (killer corpus : Str) (roundNo : ℕ) (gate : Bool)
      (box : Sandbox)
  | resolve
  | credit (before : Ledger)
  /-- The loop's own bookkeeping: round number and status. -/
  | mark (round : ℕ) (status : LedgerStatus)

def step (led : Ledger) : Call → Ledger
  | .asserts block author corpus gate box => (clerkAsserts led block author corpus gate box).1
  | .metamorph m => clerkMetamorph m led
  | .attacks block killer corpus roundNo gate box =>
    clerkAttacks led block killer corpus roundNo gate box
  | .resolve => resolve DEFAULT_K led
  | .credit before => creditSurvivors before led
  | .mark round status => { led with round, status }

/-- The operations a round performs, in order. -/
def Round.calls (led : Ledger) (r : Round) : List Call :=
  let before := { led with status := .active }
  [.mark led.round .active, .asserts r.assertBlock r.author r.corpus r.gate r.assertBox] ++
    (r.metamorph.elim [] fun m => [.metamorph m]) ++
    [.attacks r.attackBlock r.killer r.corpus (led.round + 1) r.gate r.attackBox, .resolve,
      .credit before, .mark (led.round + 1) (playRound led r).status]

theorem playRound_eq_calls (led : Ledger) (r : Round) :
    playRound led r = (r.calls led).foldl step led := by
  cases h : r.metamorph <;> simp [playRound, Round.calls, step, h]

end

end AskFable.Falsify

import AskFable.Python.Json
import AskFable.General.Keyed

/-!
# The falsification ledger

The state of an `ask_falsify` run and its pure transitions. A claim record has the
fields `normalize_claim` gives it; `reopens` is absent from a record until its first
reopening, and every reader takes an absent one as 0. A receipt stays a dict, since
the model that wrote it chooses its keys.
-/
namespace AskFable.Falsify
open AskFable.Text AskFable.Python

inductive Status
  | «open»
  | killed
  | survived
  deriving DecidableEq, Repr

/-- The falsifier's move, which is also the kind of a kill record. -/
inductive Move
  | challenge
  | contra
  | run
  deriving DecidableEq, Repr

structure Kill where
  killer : Str
  kind : Move
  round : ℕ
  accepted : Bool
  /-- Absent until a legal re-assert answers the kill. -/
  addressed : Bool
  deriving DecidableEq

structure Claim where
  id : Str
  author : Str
  domain : Str
  claim : Str
  status : Status
  receipts : List Dict
  kills : List Kill
  attempts : ℕ
  reopens : ℕ

structure Bucket where
  kills : ℕ
  deaths : ℕ
  survives : ℕ
  deriving DecidableEq, Repr

inductive RepField
  | kills
  | deaths
  | survives
  deriving DecidableEq, Repr

/-- A directed edge `[src, kind, dst]`. -/
structure Edge where
  src : Str
  kind : Str
  dst : Str
  deriving DecidableEq

inductive LedgerStatus
  | active
  | fixpoint
  deriving DecidableEq, Repr

structure Ledger where
  session : Str
  round : ℕ
  status : LedgerStatus
  claims : List Claim
  edges : List Edge
  rep : List (Str × Bucket)

/-- Failed kill attempts a supported claim must withstand to be `survived`. -/
def DEFAULT_K : ℕ := 2

/-- Times a killed claim may be resurrected before it stays dead. -/
def MAX_REOPENS : ℕ := 3

/-- Receipt verdicts only the clerk writes. -/
def CLERK_FIELDS : List Str := [txt "ok", txt "stable", txt "inconclusive", txt "by"]

/-! ### Accessors -/

def Ledger.ids (led : Ledger) : List Str := led.claims.map Claim.id

/-- `by_id(ledger).get(cid)`: the last claim of that id, as a dict comprehension
keeps it. -/
def byId (led : Ledger) (cid : Str) : Option Claim :=
  Keyed.lookupLast Claim.id led.claims cid

/-- Mutate the claim `by_id(ledger)[cid]` in place. -/
def Ledger.modify (led : Ledger) (cid : Str) (f : Claim → Claim) : Ledger :=
  { led with claims := Keyed.modifyLast Claim.id cid f led.claims }

/-! ### Schema and normalization -/

def newLedger (session : Str) : Ledger :=
  { session, round := 0, status := .active, claims := [], edges := [], rep := [] }

/-- The dict members of a list-valued field; anything else yields no row. -/
def dictRows : Option Json → List Dict
  | some (.arr xs) => xs.filterMap Json.asDict
  | _ => []

section
variable [Host]

def normalizeClaim (raw : Dict) : Option Claim :=
  let cid := strip (Dict.text raw (txt "id"))
  let claim := strip (Dict.text raw (txt "claim"))
  if cid = [] ∨ claim = [] then none
  else some
    { id := cid
      author := strip (Dict.text raw (txt "author"))
      domain := strip (Dict.getOr raw (txt "domain") (.str (txt "general"))).pyStr
      claim
      status := .open
      receipts := dictRows (Dict.get raw (txt "receipts"))
      kills := []
      attempts := 0
      reopens := 0 }

/-- A model's receipts with every clerk-only verdict removed; a `metamorph` receipt
is dropped outright. -/
def scrubReceipts : Option Json → List Dict
  | some (.arr xs) => (xs.filterMap Json.asDict).filterMap fun r =>
      if Dict.getIs r (txt "kind") (txt "metamorph") then none
      else some (Dict.without CLERK_FIELDS r)
  | _ => []

/-! ### Receipt verification -/

/-- A `cite` receipt holds iff its quote is a substring of the corpus. -/
def citeSupported (receipt : Dict) (corpus : Str) : Bool :=
  Dict.getIs receipt (txt "kind") (txt "cite") &&
    (let quote := Dict.text receipt (txt "quote")
     !quote.isEmpty && contains corpus quote)

end

/-- Depth-first search along `adj` for `goal`. Each node is expanded once, so the
pops are bounded by the edges and the start. -/
def reaches (adj : Str → List Str) (goal : Str) : ℕ → List Str → List Str → Bool
  | 0, _, _ => false
  | _ + 1, _, [] => false
  | n + 1, seen, node :: stack =>
    if node = goal then true
    else if node ∈ seen then reaches adj goal n seen stack
    else reaches adj goal n (node :: seen) ((adj node).reverse ++ stack)

/-- True if adding the edge `src → dst` would create a cycle of `contra` edges. -/
def hasCycle (existing : List Edge) (src dst : Str) : Bool :=
  let all := existing ++ [⟨src, txt "contra", dst⟩]
  let adj := fun node =>
    (all.filter fun e => e.kind == txt "contra" && e.src == node).map Edge.dst
  reaches adj src (all.length + 2) [] [dst]

def contraValid (src dst : Str) (led : Ledger) : Bool :=
  match byId led src, byId led dst with
  | some _, some d => d.status == .survived && !hasCycle led.edges src dst
  | _, _ => false

/-! ### State transitions -/

section
variable [Host]

/-- The raw claim ships a receipt whose `addresses` names the killed id. -/
def addressesKill (raw : Dict) (cid : Str) : Bool :=
  (dictRows (Dict.get raw (txt "receipts"))).any fun r => Dict.text r (txt "addresses") == cid

/-- True when `raw` illegally re-asserts a killed claim id. -/
def noReassert (led : Ledger) (raw : Dict) : Bool :=
  let cid := strip (Dict.text raw (txt "id"))
  match byId led cid with
  | none => false
  | some existing =>
    if existing.status ≠ .killed then false
    else if existing.reopens ≥ MAX_REOPENS then true
    else !addressesKill raw cid

end

def Kill.address (k : Kill) : Kill := if k.accepted then { k with addressed := true } else k

/-- An accepted kill no re-assert has answered. -/
def Kill.live (k : Kill) : Bool := k.accepted && !k.addressed

/-- Restating an existing claim: its receipts are added, and a killed one reopens. -/
def Claim.reassert (receipts : List Dict) (c : Claim) : Claim :=
  if c.status = .killed then
    { c with
      receipts := c.receipts ++ receipts
      status := .open
      kills := c.kills.map Kill.address
      attempts := 0
      reopens := c.reopens + 1 }
  else { c with receipts := c.receipts ++ receipts }

section
variable [Host]

/-- The loop body of `apply_asserts`: ledger, accepted ids, rejected raws. -/
def applyAssert (acc : Ledger × List Str × List Dict) (raw : Dict) :
    Ledger × List Str × List Dict :=
  let (led, accepted, rejected) := acc
  if noReassert led raw then (led, accepted, rejected ++ [raw])
  else
    match normalizeClaim raw with
    | none => (led, accepted, rejected ++ [raw])
    | some norm =>
      if (byId led norm.id).isSome then
        (led.modify norm.id (Claim.reassert norm.receipts), accepted ++ [norm.id], rejected)
      else ({ led with claims := led.claims ++ [norm] }, accepted ++ [norm.id], rejected)

def applyAsserts (led : Ledger) (raws : List Dict) : Ledger × List Str × List Dict :=
  raws.foldl applyAssert (led, [], [])

end

def Claim.strike (kill : Kill) (c : Claim) : Claim :=
  if kill.accepted then { c with kills := c.kills ++ [kill], status := .killed }
  else { c with kills := c.kills ++ [kill], attempts := c.attempts + 1 }

/-- Record a kill attempt. An accepted kill sets `killed`; a failed one counts toward
the target's survival. -/
def recordKill (led : Ledger) (targetId killer : Str) (kind : Move) (accepted : Bool)
    (roundNo : ℕ) : Ledger :=
  led.modify targetId (Claim.strike ⟨killer, kind, roundNo, accepted, false⟩)

def addContraEdge (led : Ledger) (src dst : Str) : Ledger :=
  { led with edges := led.edges ++ [⟨src, txt "contra", dst⟩] }

/-- A stable `metamorph` receipt the clerk wrote. -/
def stableMetamorph (r : Dict) : Bool :=
  Dict.getIs r (txt "kind") (txt "metamorph") && Dict.truthy r (txt "stable") &&
    Dict.getIs r (txt "by") (txt "clerk")

/-- A receipt that can compound: a verified `cite`, a passing `run` or a clerk's
stable `metamorph`. -/
def supporting (r : Dict) : Bool :=
  ((Dict.getIs r (txt "kind") (txt "cite") || Dict.getIs r (txt "kind") (txt "run")) &&
    Dict.truthy r (txt "ok")) || stableMetamorph r

def hasSupport (c : Claim) : Bool := c.receipts.any supporting

def Claim.settle (k : ℕ) (c : Claim) : Claim :=
  if c.kills.any Kill.live then { c with status := .killed }
  else if hasSupport c ∧ k ≤ c.attempts then { c with status := .survived }
  else if c.status ≠ .killed then { c with status := .open }
  else c

/-- Recompute every claim's status from its receipts and kills. -/
def resolve (k : ℕ) (led : Ledger) : Ledger :=
  { led with claims := led.claims.map (Claim.settle k) }

/-! ### Reputation -/

def Bucket.bump : RepField → Bucket → Bucket
  | .kills, b => { b with kills := b.kills + 1 }
  | .deaths, b => { b with deaths := b.deaths + 1 }
  | .survives, b => { b with survives := b.survives + 1 }

/-- Update the bucket of a key, starting it at zero. -/
def bumpKey (key : Str) (field : RepField) : List (Str × Bucket) → List (Str × Bucket)
  | [] => [(key, Bucket.bump field ⟨0, 0, 0⟩)]
  | (k, b) :: rest => if k = key then (k, b.bump field) :: rest
      else (k, b) :: bumpKey key field rest

def bumpRep (led : Ledger) (agent domain : Str) (field : RepField) : Ledger :=
  { led with rep := bumpKey (agent ++ cp '|' :: domain) field led.rep }

/-! ### Predicates -/

/-- Only a supported claim that is not killed may compound. -/
def compoundable (c : Claim) : Bool := c.status != .killed && hasSupport c

def survivedIds (led : Ledger) : List Str :=
  (led.claims.filter fun c => c.status == .survived && !c.id.isEmpty).map Claim.id

end AskFable.Falsify

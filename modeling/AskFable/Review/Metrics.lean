import AskFable.Review.Execute
import Mathlib.Data.List.Dedup
import Mathlib.Data.List.Lex
import Mathlib.Order.Fin.Basic

/-!
# Receipt classes and the acceptance report

`verify_metrics`: the class of an objection is what its receipt can be checked against,
and the report counts classes. Nothing here reads what the reviewer says of its own
evidence.
-/
namespace AskFable.Review
open AskFable.Text AskFable.Python AskFable.Falsify

inductive ReceiptClass
  | noObjection
  | disconfirmed
  | selfQuoting
  | claimedCheck
  | inputGrounded
  | executed
  deriving DecidableEq, Repr

def ReceiptClass.text : ReceiptClass → Str
  | noObjection => txt "no-objection"
  | disconfirmed => txt "disconfirmed"
  | selfQuoting => txt "self-quoting"
  | claimedCheck => txt "claimed-check"
  | inputGrounded => txt "input-grounded"
  | executed => txt "executed"

/-- Classes whose evidence is checkable against something that is not the draft. -/
def BACKED_CLASSES : List ReceiptClass := [.inputGrounded, .executed]

/-- Below this even a unique hit is noise. -/
def MIN_QUOTE_CHARS : ℕ := 6

/-- From here on, appearing twice is still distinctive. -/
def RARE_QUOTE_CHARS : ℕ := 12

/-- From here on, length alone carries it. -/
def DISTINCTIVE_QUOTE_CHARS : ℕ := 24

/-- `hay.count(needle)` of a needle that is not empty: occurrences that do not overlap. The
text's length bounds the steps. -/
def countFuel (needle : Str) : ℕ → Str → ℕ
  | 0, _ => 0
  | _ + 1, [] => 0
  | n + 1, c :: rest =>
    if needle.isPrefixOf (c :: rest) then countFuel needle n ((c :: rest).drop needle.length) + 1
    else countFuel needle n rest

def count (hay needle : Str) : ℕ := countFuel needle hay.length hay

/-- `_is_citable`: rarity, scaled by length. -/
def isCitable (quote corpus : Str) : Bool :=
  let stripped := strip quote
  if stripped.length < MIN_QUOTE_CHARS then false
  else if DISTINCTIVE_QUOTE_CHARS ≤ stripped.length then true
  else
    let occurrences := count corpus stripped
    let limit := if RARE_QUOTE_CHARS ≤ stripped.length then 2 else 1
    decide (1 ≤ occurrences ∧ occurrences ≤ limit)

section
variable [Host]

/-- The class of a `run` receipt is the verdict the clerk wrote on it. -/
def classifyRun (receipt : Dict) : ReceiptClass :=
  if Dict.getIs receipt (txt "clerk_verdict") (txt "failed") then .executed
  else if Dict.getIs receipt (txt "clerk_verdict") (txt "passed") then .disconfirmed
  else .claimedCheck

/-- The class of a `cite` receipt: the corpus is tried before the draft. -/
def classifyCite (receipt : Dict) (draft corpus : Str) : ReceiptClass :=
  let quote := Dict.text receipt (txt "quote")
  let stripped := strip quote
  if stripped.length < MIN_QUOTE_CHARS then .noObjection
  else if citeSupported receipt corpus then
    if isCitable quote corpus then .inputGrounded else .noObjection
  else if contains draft stripped then .selfQuoting
  else .noObjection

def classify (objection : Dict) (draft corpus : Str) : ReceiptClass :=
  match receiptOf objection with
  | none => .noObjection
  | some receipt =>
    if kindOf receipt = txt "run" then classifyRun receipt
    else if kindOf receipt = txt "cite" then classifyCite receipt draft corpus
    else .noObjection

/-! ### The report -/

/-- `o.get("receipt_class") == …`. -/
def hasClass (c : ReceiptClass) (o : Dict) : Bool :=
  Dict.getIs o (txt "receipt_class") c.text

def isBacked (o : Dict) : Bool := BACKED_CLASSES.any (hasClass · o)

/-- `str(o.get("span"))` of a span that is not empty. -/
def spanOf (o : Dict) : Option Str :=
  if Dict.truthy o (txt "span") then some (Dict.text o (txt "span")) else none

/-- The strongest class present. -/
def verdict (objections : List Dict) : Str :=
  if objections.any (hasClass .executed) then txt "executed"
  else if objections.any (hasClass .inputGrounded) then txt "input-grounded"
  else if objections.any (hasClass .selfQuoting) then txt "self-quoting"
  else txt "no-objection"

/-- The fraction of objections whose only evidence was the draft itself. -/
def selfQuoteRatio (objections : List Dict) : Option Rat :=
  if objections = [] then none
  else some (objections.countP (hasClass .selfQuoting) / objections.length)

structure Report where
  verdict : Str
  objections : ℕ
  selfQuoteRatio : Option Rat
  prevented : ℕ
  unbackedObjections : ℕ
  /-- Left out when there is none. -/
  disconfirmed : Option ℕ
  /-- Sorted, without repetitions. -/
  backedSpans : List Str
  note : Str

def NOTE : Str :=
  txt "`prevented` counts only objections whose receipt code could check against something " ++
  txt "other than the draft; an objection quoting the draft is self-certifying and counts for " ++
  txt "nothing. A high `unbacked_objections` next to a low `prevented` is a reviewer arguing " ++
  txt "rather than showing."

/-- `report`, with `ablation_delta`. -/
def report (objections : List Dict) : Report :=
  let backed := objections.filter isBacked
  let disconfirmed := objections.countP (hasClass .disconfirmed)
  { verdict := verdict objections
    objections := objections.length
    selfQuoteRatio := selfQuoteRatio objections
    prevented := backed.length
    unbackedObjections := objections.length - backed.length - disconfirmed
    disconfirmed := if disconfirmed = 0 then none else some disconfirmed
    backedSpans := ((backed.filterMap spanOf).dedup).mergeSort fun a b => decide (a ≤ b)
    note := NOTE }

/-- What the reviewer's turn is read as. No turn is a reviewer that failed. -/
def objectionsOf : Option Str → Except JsonText.LoadError (List Dict)
  | some text => (Extract.Verify.extract text).map fun r => r.2.1
  | none => .ok []

/-- One review: what the reviewer wrote, executed, classified and counted. -/
def review (x : Execution) (draft context : Str) (turn : Option Str) :
    Except JsonText.LoadError (List Dict × Report) :=
  (objectionsOf turn).map fun objections =>
    let classed := (execute x objections).map fun o =>
      Dict.set o (txt "receipt_class") (.str (classify o draft context).text)
    (classed, report classed)

end
end AskFable.Review

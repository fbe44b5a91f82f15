import AskFable.Extract.Body

/-!
# Cutting the blocks out

The scanner the four extractors share: the fenced blocks of a text, what their bodies
hold, which of them count, and the text without those. Each extractor adds its own info
word and key and what it makes of the object.
-/
namespace AskFable.Extract
open AskFable.Text AskFable.Python AskFable.Python.JsonText AskFable.Regex

/-- `str.lower`; an info word is ASCII. -/
def lower (s : Str) : Str := s.map lowerAscii

/-- A typographic quote as a plain one. -/
def straighten (c : Cp) : Cp :=
  if c = cp '‘' ∨ c = cp '’' then 39 else if c = cp '“' ∨ c = cp '”' then cp '"' else c

def closer (c : Cp) : Bool := c == cp '}' || c == cp ']'

/-- A trailing comma, with what follows it as group 1. -/
def TRAILING_RE : Re :=
  .seq (.lit (cp ',')) (.group 1 (.seq (.star true (.set isSpace)) (.set closer)))

/-- `_repair`. -/
def repair (blob : Str) : Str :=
  sub TRAILING_RE (fun m => m.group 1) ((strip blob).map straighten)

section
variable [Host]

/-- One attempt: the object a text holds, if it holds one. A text nested past the
interpreter's limit raises through the extractor. -/
def tryLoad (s : Str) : Except LoadError (Option Dict) :=
  match loads s with
  | .ok v => .ok v.asDict
  | .error .value | .error .digits => .ok none
  | .error .recursion => .error .recursion

/-- `_loose_json`. -/
def looseJson (blob : Str) : Except LoadError (Option Dict) :=
  match tryLoad blob with
  | .ok none => tryLoad (repair blob)
  | r => r

/-- A stretch of the scanned text: a code point outside the blocks, or a block with what
its body holds. -/
inductive Piece
  | text (c : Cp)
  | block (m : Match) (obj : Option Dict)

/-- `parsed`. -/
def parse : List Seg → Except LoadError (List Piece)
  | [] => .ok []
  | .skip c :: segs => (parse segs).map (.text c :: ·)
  | .hit m :: segs => (looseJson (m.group 2)).bind fun obj => (parse segs).map (.block m obj :: ·)

end

/-- What tells an extractor's blocks apart: the info word, and a key for blocks without
it. -/
structure Mark where
  fence : Str
  sentinel : Str

namespace Mark
variable (k : Mark)

/-- A block with the info word. -/
def fenced : Piece → Bool
  | .text _ => false
  | .block m _ => lower (strip (m.group 1)) == k.fence

/-- A block that holds an object with the key. -/
def keyed : Piece → Bool
  | .text _ => false
  | .block _ obj => obj.elim false fun o => (Dict.get o k.sentinel).isSome

/-- The blocks that count: those with the info word, or, without any, those with the
key. -/
def candidate (ps : List Piece) : Piece → Bool := if ps.any k.fenced then k.fenced else k.keyed

end Mark

namespace Piece

def source : Piece → Str
  | text c => [c]
  | block m _ => m.text

/-- What the body of a block holds. -/
def held : Piece → Option (Option Dict)
  | text _ => none
  | block _ obj => some obj

end Piece

/-- The text without the blocks that count. -/
def prose (k : Mark) (ps : List Piece) : Str :=
  (ps.filter fun p => !k.candidate ps p).flatMap Piece.source

/-- What the blocks that count hold. -/
def found (k : Mark) (ps : List Piece) : List (Option Dict) :=
  (ps.filter (k.candidate ps)).filterMap Piece.held

/-- The part all extractors share: the prose, and what was found. -/
def cut [Host] (k : Mark) (text : Str) : Except LoadError (Str × List (Option Dict)) :=
  (parse (scan FENCE_RE text)).map fun ps => (prose k ps, found k ps)

/-- The object of the one block there is. -/
def single : List (Option Dict) → Option Dict
  | [some o] => some o
  | _ => none

/-! ### The sidecar -/

namespace Sidecar
variable [Host]

def MARK : Mark := ⟨txt "json-sidecar", txt "sidecar_version"⟩

def REC_VALUES : List Str :=
  [txt "apply", txt "investigate", txt "reject", txt "needs_more_context"]

def CONF_VALUES : List Str := [txt "low", txt "medium", txt "high"]

/-- The normalised block. -/
structure Fields where
  recommendation : Option Str
  confidence : Option Str
  needsContext : List Str
  deriving DecidableEq

/-- `x if x in values else None`. -/
def oneOf (values : List Str) : Option Json → Option Str
  | some (.str s) => if s ∈ values then some s else none
  | _ => none

/-- `_normalize`. -/
def normalize (obj : Dict) : Fields where
  recommendation := oneOf REC_VALUES (Dict.get obj (txt "recommendation"))
  confidence := oneOf CONF_VALUES (Dict.get obj (txt "confidence"))
  needsContext :=
    match Dict.get obj (txt "needs_context") with
    | some (.arr xs) => xs.map Json.pyStr
    | _ => []

def extract (text : Str) : Except LoadError (Str × Option Fields) :=
  (cut MARK text).map fun r =>
    if r.2 = [] then (strip text, none) else (strip r.1, (single r.2).map normalize)

end Sidecar

/-! ### The debate and falsify ledgers -/

/-- An extractor that returns the object as it is. -/
def extractLedger [Host] (k : Mark) (text : Str) : Except LoadError (Str × Option Dict) :=
  (cut k text).map fun r => if r.2 = [] then (strip text, none) else (strip r.1, single r.2)

namespace DebateLedger

def MARK : Mark := ⟨txt "json-debate", txt "debate_version"⟩

def extract [Host] : Str → Except LoadError (Str × Option Dict) := extractLedger MARK

end DebateLedger

namespace FalsifyLedger

def MARK : Mark := ⟨txt "json-falsify", txt "falsify_version"⟩

def extract [Host] : Str → Except LoadError (Str × Option Dict) := extractLedger MARK

end FalsifyLedger

/-! ### The review block -/

namespace Verify
variable [Host]

def MARK : Mark := ⟨txt "json-verify", txt "verify_version"⟩

def MAX_OBJECTIONS : ℕ := 12

def CLERK_FIELDS : List Str :=
  [txt "receipt_class", txt "backed", txt "ok", txt "verified", txt "prevented", txt "failed",
    txt "clerk_verdict"]

/-- One objection without what only the clerk may write. -/
def scrubItem (item : Dict) : Dict :=
  let clean := Dict.without CLERK_FIELDS item
  match Dict.get clean (txt "receipt") with
  | some (.obj receipt) =>
    Dict.set clean (txt "receipt") (.obj (Dict.without CLERK_FIELDS receipt))
  | _ => clean

def scrub (objections : List Json) : List Dict :=
  ((objections.take MAX_OBJECTIONS).filterMap Json.asDict).map scrubItem

/-- Three line breaks or more. -/
def BREAKS_RE : Re := .atLeast (.lit (cp '\n')) 3

/-- `re.sub(r"\n{3,}", "\n\n", …)`. -/
def collapse (s : Str) : Str := sub BREAKS_RE (fun _ => [cp '\n', cp '\n']) s

/-- The objections of the one block there is, and whether it could be read. -/
def readBlock (obj : Option Dict) : List Dict × Bool :=
  match obj.bind fun o => Dict.get o (txt "objections") with
  | some (.arr raw) => (scrub raw, true)
  | _ => ([], false)

def extract (text : Str) : Except LoadError (Str × List Dict × Bool) :=
  (cut MARK text).map fun r =>
    if r.2 = [] then (strip text, [], false)
    else (strip (collapse r.1), readBlock (single r.2))

end Verify
end AskFable.Extract

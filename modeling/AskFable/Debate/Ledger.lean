import AskFable.Python.Json

/-!
# The debate ledger

The rows of a model-written ledger and the predicates over them that decide how a debate
goes on: what the opponent contests, what the proposer closed, whether a rebuttal still
contests, and whether it only repeats itself.
-/
namespace AskFable.Debate
open AskFable.Text AskFable.Python

abbrev Ledger := Option Dict

/-- `_rows`: the dict rows of a field, none for anything else. -/
def rows (l : Ledger) (field : Str) : List Dict :=
  match l.bind (Dict.get · field) with
  | some (.arr xs) => xs.filterMap Json.asDict
  | _ => []

def claims (l : Ledger) : List Dict := rows l (txt "claims")

def dispositions (l : Ledger) : List Dict := rows l (txt "dispositions")

def addedClaims (l : Ledger) : List Dict := rows l (txt "added_claims")

def resolutions (l : Ledger) : List Dict := rows l (txt "resolutions")

/-- `d.get("verdict") == "contest"`. -/
def contests (d : Dict) : Bool := Dict.getIs d (txt "verdict") (txt "contest")

def concedes (d : Dict) : Bool := Dict.getIs d (txt "verdict") (txt "concede")

/-- A row with an id that counts. -/
def named (d : Dict) : Bool := Dict.truthy d (txt "id")

section
variable [Host]

/-- `str(d.get("id"))`. -/
def rowId (d : Dict) : Str := ((Dict.get d (txt "id")).getD .null).pyStr

/-- `str(d.get(k) or "").strip()` as a condition. -/
def noted (d : Dict) (k : Str) : Bool := strip (Dict.text d k) ≠ []

/-- The first of each value, in order. -/
def dedup : List Str → List Str
  | [] => []
  | i :: ids => i :: (dedup ids).filter (· ≠ i)

/-- `contested_after_refute`. -/
def contestedAfterRefute (l : Ledger) : List Str :=
  dedup (((dispositions l).filter fun d => contests d && named d).map rowId ++
    ((addedClaims l).filter named).map rowId)

/-- The last resolution under an id. -/
def resolutionOf (l : Ledger) (id : Str) : Option Dict :=
  ((resolutions l).filter named).reverse.find? fun r => rowId r = id

/-- A resolution that closes its claim: a revision, a withdrawal, or a defence with a
note. -/
def closes (r : Dict) : Bool :=
  let status := Dict.getIs r (txt "status")
  status (txt "revised") || status (txt "withdrawn") ||
    (status (txt "defended") && noted r (txt "note"))

def closed (l : Ledger) (id : Str) : Bool := (resolutionOf l id).elim false closes

/-- `open_after_revise`. -/
def openAfterRevise (contested : List Str) (l : Ledger) : List Str :=
  contested.filter fun id => !closed l id

/-- `low_effort_opposition`. -/
def lowEffortOpposition (l : Ledger) : Bool :=
  let conceded := (dispositions l).filter concedes
  !conceded.isEmpty && conceded.all fun d => !noted d (txt "attempted_refutation")

/-- `still_contested_after_rebut`. -/
def stillContestedAfterRebut (l : Ledger) : List Dict := (dispositions l).filter contests

/-- `is_stalemate`. -/
def isStalemate (l : Ledger) (openIds : List Str) : Bool :=
  let still := stillContestedAfterRebut l
  !still.isEmpty && still.all (Dict.getIs · (txt "novelty") (txt "restated")) &&
    still.all fun d => openIds.contains (rowId d)

omit [Host] in
theorem mem_dedup {id : Str} {ids : List Str} : id ∈ dedup ids ↔ id ∈ ids := by
  induction ids with
  | nil => simp [dedup]
  | cons i ids ih =>
    by_cases h : id = i
    · simp [dedup, h]
    · simp [dedup, h, ih]

theorem mem_contestedAfterRefute {id : Str} {l : Ledger} :
    id ∈ contestedAfterRefute l ↔
      (∃ d ∈ dispositions l, contests d = true ∧ named d = true ∧ rowId d = id) ∨
        ∃ a ∈ addedClaims l, named a = true ∧ rowId a = id := by
  simp only [contestedAfterRefute, mem_dedup, List.mem_append, List.mem_map, List.mem_filter,
    Bool.and_eq_true, and_assoc]

end

end AskFable.Debate

import AskFable.Extract.Blocks
import AskFable.Falsify.Clerk

/-!
# The executed verdict of a review

`_execute` runs the snippet of every `run` receipt and stamps what came of it. A
non-zero exit refutes the draft only when the check failed; which exception ended the
snippet is read back from the text it left on stderr.
-/
namespace AskFable.Review
open AskFable.Text AskFable.Python AskFable.Regex AskFable.Extract AskFable.Falsify

/-- Exceptions that mean the check failed, as opposed to the snippet being broken. -/
def GENUINE_FAILURES : List Str := [txt "AssertionError", txt "SystemExit"]

/-- `[A-Za-z_]`. -/
def nameStart (c : Cp) : Bool := isUpper c || isLower c || c == cp '_'

section
variable [Host]

/-- `_EXC_LINE`, tried at the start of a line: a bare `SomeError` or `pkg.SomeError`. -/
def EXC_LINE : Re :=
  .seqs [
    .opt (.seqs [.set nameStart, .star true (.set fun c => wordChar c || c == cp '.'),
      .lit (cp '.')]),
    .group 1 (.seqs [.set nameStart, .star true (.set wordChar),
      .alts [.word (txt "Error"), .word (txt "Exit"), .word (txt "Exception"),
        .word (txt "Interrupt")]]),
    .edge wordChar]

/-- Group 1 of `_EXC_LINE.match(line)`. -/
def excName (line : Str) : Option Str :=
  (run EXC_LINE ⟨[], line, []⟩).head?.map fun t => (t.caps.lookup 1).getD []

inductive FailureKind
  | check
  | snippet
  deriving DecidableEq, Repr

/-- `_failure_kind`: the last line with the shape of an exception decides; without one
the exit counts as deliberate. -/
def failureKind (stderr : Str) : FailureKind :=
  match (splitlines stderr).reverse.findSome? fun line => excName (strip line) with
  | some name => if name ∈ GENUINE_FAILURES then .check else .snippet
  | none => .check

inductive Stamp
  | passed
  | failed
  | inconclusive
  deriving DecidableEq, Repr

def Stamp.text : Stamp → Str
  | passed => txt "passed"
  | failed => txt "failed"
  | inconclusive => txt "inconclusive"

/-- What `_execute` makes of one sandbox result. -/
def stampOf (res : SandboxResult) : Stamp :=
  match res.status with
  | .disabled | .unavailable | .timeout | .error => .inconclusive
  | .ok => .passed
  | .fail =>
    match failureKind res.stderr with
    | .check => .failed
    | .snippet => .inconclusive

/-- The same normalization the classifier uses. -/
def kindOf (receipt : Dict) : Str := lower (strip (Dict.text receipt (txt "kind")))

/-- `_RUN_BUDGET_S`. -/
def RUN_BUDGET_S : Rat := 30

/-- What one call of `_execute` reads from outside: the sandbox's self-test, the sandbox,
and the seconds spent when it reaches each objection. -/
structure Execution where
  gate : Bool
  box : Sandbox
  elapsed : ℕ → Rat
  budget : Rat

/-- The snippet is handed to the sandbox. -/
def Execution.submits (x : Execution) (i : ℕ) (code : Str) : Bool :=
  x.gate && strip code != [] && !decide (x.budget < x.elapsed i)

def Execution.verdict (x : Execution) (i : ℕ) (code : Str) : Stamp :=
  if x.submits i code then stampOf (runPython x.box (i, 0) code) else .inconclusive

/-- `_execute` on one objection. -/
def executeItem (x : Execution) (i : ℕ) (obj : Dict) : Dict :=
  match Dict.get obj (txt "receipt") with
  | some (.obj receipt) =>
    if kindOf receipt = txt "run" then
      Dict.set obj (txt "receipt") (.obj (Dict.set receipt (txt "clerk_verdict")
        (.str (x.verdict i (Dict.text receipt (txt "code"))).text)))
    else obj
  | _ => obj

def execute (x : Execution) (objections : List Dict) : List Dict :=
  objections.mapIdx (executeItem x)

end

/-! ### Receipts -/

/-- The receipt of an objection, when it is a dict. -/
def receiptOf (obj : Dict) : Option Dict :=
  match Dict.get obj (txt "receipt") with
  | some (.obj receipt) => some receipt
  | _ => none

theorem receiptOf_eq {obj receipt : Dict} :
    receiptOf obj = some receipt ↔ Dict.get obj (txt "receipt") = some (.obj receipt) := by
  unfold receiptOf
  split <;> simp_all

theorem receiptOf_set (obj receipt : Dict) :
    receiptOf (Dict.set obj (txt "receipt") (.obj receipt)) = some receipt :=
  receiptOf_eq.mpr (Dict.get_set_self _ _ _)

section
variable [Host]

theorem kindOf_stamped (receipt : Dict) (s : Stamp) :
    kindOf (Dict.set receipt (txt "clerk_verdict") (.str s.text)) = kindOf receipt := by
  rw [kindOf, Dict.text_set_ne _ _ (by decide), kindOf]

/-- What `_execute` leaves of a receipt. -/
def Execution.stamped (x : Execution) (i : ℕ) (receipt : Dict) : Dict :=
  if kindOf receipt = txt "run" then
    Dict.set receipt (txt "clerk_verdict") (.str (x.verdict i (Dict.text receipt (txt "code"))).text)
  else receipt

theorem receiptOf_executeItem (x : Execution) (i : ℕ) (obj : Dict) :
    receiptOf (executeItem x i obj) = (receiptOf obj).map (x.stamped i) := by
  cases h : receiptOf obj with
  | none =>
    have hitem : executeItem x i obj = obj := by
      unfold executeItem
      unfold receiptOf at h
      split at h <;> simp_all
    rw [hitem, h, Option.map_none]
  | some receipt =>
    have hget := receiptOf_eq.mp h
    rw [Option.map_some, Execution.stamped, executeItem, hget]
    dsimp only
    split_ifs with hk
    · exact receiptOf_set _ _
    · exact h

/-- Every other field of an objection is left alone. -/
theorem get_executeItem (x : Execution) (i : ℕ) (obj : Dict) {k : Str} (hk : txt "receipt" ≠ k) :
    Dict.get (executeItem x i obj) k = Dict.get obj k := by
  unfold executeItem
  split
  · split_ifs
    · exact Dict.get_set_ne _ _ hk
    · rfl
  · rfl

theorem execute_getElem? (x : Execution) (objections : List Dict) (i : ℕ) :
    (execute x objections)[i]? = objections[i]?.map (executeItem x i) := by
  rw [execute, List.getElem?_mapIdx]

end

/-! ### What the last exception line says -/

section
variable [Host]

/-- Some line has the shape of an exception, and the last such line names one that does
not count as a failed check. -/
def NamesBroken (stderr : Str) : Prop :=
  ∃ before line later name, splitlines stderr = before ++ line :: later ∧
    excName (strip line) = some name ∧ name ∉ GENUINE_FAILURES ∧
    ∀ l ∈ later, excName (strip l) = none

theorem failureKind_eq_snippet (stderr : Str) :
    failureKind stderr = .snippet ↔ NamesBroken stderr := by
  unfold failureKind NamesBroken
  generalize splitlines stderr = lines
  cases h : lines.reverse.findSome? fun line => excName (strip line) with
  | none =>
    simp only [reduceCtorEq, false_iff]
    rintro ⟨before, line, later, name, rfl, hname, -, -⟩
    rw [List.findSome?_eq_none_iff] at h
    exact absurd hname (by rw [h line (by simp)]; simp)
  | some name =>
    obtain ⟨l₁, line, l₂, hlines, hname, hnone⟩ := List.findSome?_eq_some_iff.mp h
    have hrev : lines = l₂.reverse ++ line :: l₁.reverse := by
      rw [← List.reverse_reverse lines, hlines]
      simp
    constructor
    · intro hk
      by_cases hg : name ∈ GENUINE_FAILURES
      · simp [hg] at hk
      · exact ⟨_, _, _, name, hrev, hname, hg, fun l hl => hnone l (List.mem_reverse.mp hl)⟩
    · rintro ⟨before, line', later, name', heq, hname', hg, hlater⟩
      have hfind : lines.reverse.findSome? (fun line => excName (strip line)) = some name' := by
        rw [heq]
        refine List.findSome?_eq_some_iff.mpr ⟨later.reverse, line', before.reverse, by simp,
          hname', fun l hl => hlater l (List.mem_reverse.mp hl)⟩
      have hsame : name' = name := Option.some.inj (hfind.symm.trans h)
      simp [hsame ▸ hg]

/-- A non-zero exit refutes the draft exactly when no broken snippet is named. -/
theorem stampOf_eq_failed (res : SandboxResult) :
    stampOf res = .failed ↔ res.status = .fail ∧ ¬NamesBroken res.stderr := by
  have hkind := failureKind_eq_snippet res.stderr
  unfold stampOf
  cases hs : res.status <;> simp only [reduceCtorEq, false_and, true_and]
  cases hk : failureKind res.stderr <;> simp [← hkind, hk]

theorem stampOf_eq_inconclusive (res : SandboxResult) :
    stampOf res = .inconclusive ↔ res.status ≠ .ok ∧ stampOf res ≠ .failed := by
  unfold stampOf
  cases res.status <;> simp only [ne_eq, reduceCtorEq, not_false_eq_true, not_true_eq_false,
    true_and, false_and]
  cases failureKind res.stderr <;> simp

end

end AskFable.Review

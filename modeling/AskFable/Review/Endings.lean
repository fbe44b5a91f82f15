import AskFable.Review.Execute
import Mathlib.Data.List.DropRight

/-!
# How a snippet ends

The ways a process ends that `python3` ran a snippet in, and what each leaves behind:
an uncaught exception closes stderr with a line that starts with its class, an exit and a
kill print no such line. The verdict is taken from this text alone, so the review fails
closed exactly as far as the text still names the exception.
-/
namespace AskFable.Review
open AskFable.Text AskFable.Python AskFable.Regex AskFable.Extract AskFable.Falsify

/-- An exit status that is not 0. -/
abbrev Failure := { n : ℤ // n ≠ 0 }

inductive Ending
  /-- An uncaught exception, its class as the traceback prints it. -/
  | raised (name message : Str) (status : Failure)
  /-- `SystemExit` or a bare exit, with what the exit itself printed. -/
  | exited (status : ℤ) (printed : Str)
  /-- A signal, sent by the kernel for a limit or by the snippet itself. -/
  | killed (status : Failure)
  /-- The watchdog's kill. -/
  | expired
  deriving DecidableEq

/-- One run of a snippet: what it wrote before its end, the traceback's head included,
and the end. -/
structure Snippet where
  stdout : Str
  wrote : Str
  ending : Ending

/-- Characters the runner retains of a stream. -/
def READ_CAP : ℕ := 65536

namespace Ending

/-- A class name without the path to it. -/
def lastName (name : Str) : Str := name.rtakeWhile (· != cp '.')

/-- The check failed, or the snippet chose to exit. -/
def deliberate : Ending → Bool
  | raised name _ _ => decide (lastName name ∈ GENUINE_FAILURES)
  | exited _ _ => true
  | killed _ | expired => false

/-- The last line of a traceback, `Type` or `Type: message`. -/
def lastLine (name message : Str) : Str :=
  name ++ if message = [] then [] else txt ": " ++ message

/-- What is on stderr at the end. -/
def stderr (wrote : Str) : Ending → Str
  | raised name message _ => wrote ++ cp '\n' :: (lastLine name message ++ [cp '\n'])
  | exited _ printed => wrote ++ printed
  | killed _ | expired => wrote

def returncode : Ending → Option ℤ
  | raised _ _ status | killed status => some status.1
  | exited status _ => some status
  | expired => none

end Ending

/-- What the runner keeps of stderr. -/
def Snippet.kept (s : Snippet) : Str := (s.ending.stderr s.wrote).take READ_CAP

/-- What the runner reports of a snippet. -/
def Snippet.cliRun (s : Snippet) : CliRun where
  returncode := s.ending.returncode
  timedOut := s.ending == .expired
  stdout := s.stdout.take READ_CAP
  stderr := s.kept

/-- The sandbox's own diagnostics, or a process limit, show in what was kept. -/
def Snippet.blamesSandbox (s : Snippet) : Bool :=
  SETUP_PREFIXES.any (·.isPrefixOf (s.kept.dropWhile isSpace)) || contains s.kept EAGAIN

/-- A sandbox that runs these snippets, one for each objection. -/
def boxOf (enabled available : Bool) (timeoutShown : Str) (snippets : ℕ → Snippet) : Sandbox where
  enabled
  available
  timeoutShown
  exec p _ := (snippets p.1).cliRun

/-- The process of a snippet was started. -/
def Execution.runs [Host] (x : Execution) (i : ℕ) (code : Str) : Bool :=
  x.submits i code && x.box.enabled && x.box.available

/-- The result of a snippet the sandbox ran is that of a failing one exactly when it
exited non-zero by itself. -/
theorem runPython_boxOf (timeoutShown : Str) (snippets : ℕ → Snippet) (i : ℕ)
    {enabled available : Bool} {code : Str} (he : enabled = true) (ha : available = true)
    (hc : strip code ≠ []) :
    let s := snippets i
    let res := runPython (boxOf enabled available timeoutShown snippets) (i, 0) code
    (res.status = .fail ↔ s.ending ≠ .expired ∧ s.ending.returncode ≠ some 0 ∧
      s.blamesSandbox = false) ∧
    (res.status = .fail → res.stderr = clipStream s.kept) ∧
    (res.status = .ok → s.ending.returncode = some 0) := by
  intro s res
  have hres : res = runPython (boxOf enabled available timeoutShown snippets) (i, 0) code := rfl
  simp only [runPython, boxOf, he, ha, hc, Bool.not_true, Bool.false_eq_true, if_false,
    Snippet.cliRun, show snippets i = s from rfl] at hres
  have hblame : s.blamesSandbox = true ↔
      (SETUP_PREFIXES.any (·.isPrefixOf (s.kept.dropWhile isSpace)) = true ∨
        contains s.kept EAGAIN = true) := by
    rw [Snippet.blamesSandbox, Bool.or_eq_true]
  by_cases hexp : s.ending = .expired
  · rw [if_pos (by simp [hexp])] at hres
    simp [hres, hexp]
  · rw [if_neg (by simpa using hexp)] at hres
    obtain ⟨rc, hrc⟩ : ∃ rc, s.ending.returncode = some rc := by
      cases h : s.ending <;> simp_all [Ending.returncode]
    rw [hrc] at hres ⊢
    simp only [← hblame] at hres
    by_cases hzero : rc = 0
    · simp [hres, hzero]
    · by_cases hb : s.blamesSandbox = true
      · rw [if_pos ⟨hzero, hb⟩] at hres
        simp [hres, hb]
      · rw [if_neg (by simp [hb])] at hres
        simp [hres, hzero, hb, hexp]

section
variable [Host]

/-! ### Failing closed -/

/-- The stamp `failed` is for deliberate endings only; any other ending is stamped
`inconclusive`. -/
def FailsClosed (e : Ending) (stamp : Option Json) : Prop :=
  (stamp = some (.str (txt "failed")) → e.deliberate = true) ∧
    (e.deliberate = false → stamp = some (.str (txt "inconclusive")))

/-- Something stands against the stamp `failed` although the ending was not deliberate:
the watchdog, the sandbox's own diagnostics, or what is shown of stderr, whose last line
with the shape of an exception names one that is no failed check. -/
def Snippet.Excused (s : Snippet) : Prop :=
  s.ending = .expired ∨ s.blamesSandbox = true ∨ NamesBroken (clipStream s.kept)

theorem verdict_failsClosed {x : Execution} (snippets : ℕ → Snippet) {timeoutShown : Str}
    (hbox : x.box = boxOf x.box.enabled x.box.available timeoutShown snippets) (i : ℕ) (code : Str)
    (hdel : (snippets i).ending.deliberate = false) :
    x.verdict i code = .inconclusive ↔ (x.runs i code = true → (snippets i).Excused) := by
  unfold Execution.verdict
  by_cases hsub : x.submits i code = true
  swap
  · simp [Execution.runs, hsub]
  rw [if_pos hsub]
  have hcode : strip code ≠ [] := by
    simp only [Execution.submits, Bool.and_eq_true, bne_iff_ne] at hsub
    exact hsub.1.2
  by_cases he : x.box.enabled = true
  swap
  · have hres : (runPython x.box (i, 0) code).status = .disabled := by simp [runPython, he]
    simp [Execution.runs, he, stampOf, hres]
  by_cases ha : x.box.available = true
  swap
  · have hres : (runPython x.box (i, 0) code).status = .unavailable := by
      simp [runPython, he, ha, hcode]
    simp [Execution.runs, ha, stampOf, hres]
  obtain ⟨hfail, hstderr, hok⟩ := runPython_boxOf timeoutShown snippets i he ha hcode
  rw [← hbox] at hfail hstderr hok
  have hrc : (snippets i).ending.returncode ≠ some 0 := by
    cases h : (snippets i).ending with
    | raised name message status => simpa [Ending.returncode] using status.2
    | exited status printed => simp [h, Ending.deliberate] at hdel
    | killed status => simpa [Ending.returncode] using status.2
    | expired => simp [Ending.returncode]
  have hruns : x.runs i code = true := by simp [Execution.runs, hsub, he, ha]
  have hstamp := stampOf_eq_failed (runPython x.box (i, 0) code)
  rw [stampOf_eq_inconclusive, hruns, ne_eq, ne_eq, hstamp, hfail]
  have hnok : (runPython x.box (i, 0) code).status ≠ .ok := fun h => hrc (hok h)
  by_cases hst : (runPython x.box (i, 0) code).status = .fail
  · rw [hstderr hst]
    have hfail' := hfail.mp hst
    simp only [Snippet.Excused, hfail'.1, hfail'.2.2, hnok, hrc, ne_eq, not_false_eq_true, true_and,
      not_not, forall_const, false_or, Bool.false_eq_true]
  · have hno := hfail.not.mp hst
    simp only [Snippet.Excused, hnok, ne_eq, not_false_eq_true, true_and, forall_const]
    refine iff_of_true (fun h => hno h.1) ?_
    by_contra hex
    push Not at hex
    exact hno ⟨hex.1, hrc, by simpa using hex.2.1⟩

/-- Every run receipt of a call fails closed. -/
def AllFailClosed (x : Execution) (snippets : ℕ → Snippet) (objections : List Dict) : Prop :=
  ∀ i receipt, ((execute x objections)[i]?.bind receiptOf) = some receipt →
    kindOf receipt = txt "run" →
    FailsClosed (snippets i).ending (Dict.get receipt (txt "clerk_verdict"))

/-- A call fails closed exactly when each snippet it ran to an end that was not deliberate
is excused. -/
theorem execute_failsClosed_iff (enabled available gate : Bool) (timeoutShown : Str)
    (elapsed : ℕ → Rat) (budget : Rat) (snippets : ℕ → Snippet) (objections : List Dict) :
    let x : Execution := ⟨gate, boxOf enabled available timeoutShown snippets, elapsed, budget⟩
    AllFailClosed x snippets objections ↔
      ∀ i receipt, (objections[i]?.bind receiptOf) = some receipt →
        kindOf receipt = txt "run" → x.runs i (Dict.text receipt (txt "code")) = true →
        (snippets i).ending.deliberate = false → (snippets i).Excused := by
  intro x
  have hat (i : ℕ) : (execute x objections)[i]?.bind receiptOf =
      (objections[i]?.bind receiptOf).map (x.stamped i) := by
    rw [execute_getElem?]
    cases objections[i]? with
    | none => rfl
    | some obj => exact receiptOf_executeItem x i obj
  have hstamped {i : ℕ} {receipt : Dict} (hk : kindOf receipt = txt "run") :
      Dict.get (x.stamped i receipt) (txt "clerk_verdict") =
        some (.str (x.verdict i (Dict.text receipt (txt "code"))).text) := by
    rw [Execution.stamped, if_pos hk, Dict.get_set_self]
  have hkind {i : ℕ} {receipt : Dict} : kindOf (x.stamped i receipt) = kindOf receipt := by
    unfold Execution.stamped
    split_ifs
    · exact kindOf_stamped _ _
    · rfl
  have hclosed {i : ℕ} {receipt : Dict} (hk : kindOf receipt = txt "run") :
      FailsClosed (snippets i).ending (Dict.get (x.stamped i receipt) (txt "clerk_verdict")) ↔
        (x.runs i (Dict.text receipt (txt "code")) = true →
          (snippets i).ending.deliberate = false → (snippets i).Excused) := by
    rw [hstamped hk]
    cases hdel : (snippets i).ending.deliberate with
    | true => simp [FailsClosed, hdel]
    | false =>
      have h := verdict_failsClosed (x := x) snippets rfl i
        (Dict.text receipt (txt "code")) hdel
      simp only [FailsClosed, hdel, forall_const, Bool.false_eq_true, imp_false, ← h]
      cases x.verdict i (Dict.text receipt (txt "code")) <;> simp [Stamp.text] <;> decide
  constructor
  · intro hall i receipt hget hk
    have hafter : (execute x objections)[i]?.bind receiptOf = some (x.stamped i receipt) := by
      rw [hat, hget, Option.map_some]
    exact (hclosed hk).mp (hall i _ hafter (hkind.trans hk))
  · intro hall i receipt' hget hk
    rw [hat] at hget
    obtain ⟨receipt, hreceipt, rfl⟩ := Option.map_eq_some_iff.mp hget
    have hk' : kindOf receipt = txt "run" := hkind.symm.trans hk
    exact (hclosed hk').mpr (hall i receipt hreceipt hk')

end

/-- A traceback's head, as a one-line script leaves it. -/
def tracebackHead (source : String) : Str :=
  txt "Traceback (most recent call last):\n  File \"/tmp/_run.py\", line 1, in <module>\n    " ++
    txt source

/-- `next(iter([]))`: the class that ends it has none of the four suffixes. -/
def exhausted : Snippet :=
  ⟨[], tracebackHead "next(iter([]))", .raised (txt "StopIteration") [] ⟨1, Int.one_ne_zero⟩⟩

/-- One objection with a `run` receipt. -/
def runObjection (code : Str) : Dict :=
  [(txt "receipt", .obj [(txt "kind", .str (txt "run")), (txt "code", .str code)])]

theorem stopIteration_stamped_failed :
    let box := boxOf true true (txt "8") fun _ => exhausted
    ¬@AllFailClosed Host.ascii ⟨true, box, fun _ => 0, RUN_BUDGET_S⟩ (fun _ => exhausted)
      [runObjection (txt "next(iter([]))")] := by
  intro box h
  let : Host := Host.ascii
  have hstamp : (((execute ⟨true, box, fun _ => 0, RUN_BUDGET_S⟩
      [runObjection (txt "next(iter([]))")])[0]?.bind receiptOf).any fun r =>
        kindOf r == txt "run" && Dict.getIs r (txt "clerk_verdict") (txt "failed")) = true := by
    decide +kernel
  cases hreceipt : (execute ⟨true, box, fun _ => 0, RUN_BUDGET_S⟩
      [runObjection (txt "next(iter([]))")])[0]?.bind receiptOf with
  | none => simp [hreceipt] at hstamp
  | some receipt =>
    rw [hreceipt, Option.any_some, Bool.and_eq_true, beq_iff_eq] at hstamp
    have hdel := (h 0 receipt hreceipt hstamp.1).1 (Dict.getIs_iff.mp hstamp.2)
    exact absurd hdel (by decide)

end AskFable.Review

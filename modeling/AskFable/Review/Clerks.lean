import AskFable.Review.Endings

/-!
# Two readers of one run

The falsifier's clerk and the reviewer's executor both read a `SandboxResult`. The one
refuses a refutation when stderr holds a listed marker anywhere, the other when the last
exception line names a class that is not listed, so each takes for evidence some runs
the other leaves alone.
-/
namespace AskFable.Review
open AskFable.Text AskFable.Python AskFable.Regex AskFable.Falsify

/-- `_run_verdict` on one sandbox result. -/
def runVerdictOf (gate : Bool) (res : SandboxResult) : RunVerdict :=
  if !gate then .inconclusive
  else
    match res.status with
    | .disabled | .unavailable | .timeout | .error => .inconclusive
    | .fail => if INCONCLUSIVE_MARKERS.any (contains res.stderr) then .inconclusive else .fail
    | .ok => .pass

theorem runVerdict_eq (box : Sandbox) (gate : Bool) (place : ℕ × ℕ) (code : Str) :
    runVerdict box gate place code = runVerdictOf gate (runPython box place code) := rfl

/-- One of the listed markers stands in the text. -/
def Marked (stderr : Str) : Prop := ∃ m ∈ INCONCLUSIVE_MARKERS, m <:+: stderr

theorem runVerdictOf_eq_fail (gate : Bool) (res : SandboxResult) :
    runVerdictOf gate res = .fail ↔ gate = true ∧ res.status = .fail ∧ ¬Marked res.stderr := by
  have hmarked : INCONCLUSIVE_MARKERS.any (contains res.stderr) = true ↔ Marked res.stderr := by
    simp [Marked]
  unfold runVerdictOf
  cases gate with
  | false => simp
  | true =>
    cases hs : res.status <;> simp [hmarked]

section
variable [Host]

/-- `_execute` stamps `failed` for this result. -/
def stampsFailed (gate : Bool) (res : SandboxResult) : Prop :=
  gate = true ∧ stampOf res = .failed

/-- The stamp of a submitted snippet is read off its result alone. -/
theorem Execution.verdict_eq_failed (x : Execution) {i : ℕ} {code : Str}
    (hcode : strip code ≠ []) (htime : ¬x.budget < x.elapsed i) :
    x.verdict i code = .failed ↔ stampsFailed x.gate (runPython x.box (i, 0) code) := by
  cases hg : x.gate with
  | false => simp [Execution.verdict, Execution.submits, stampsFailed, hg]
  | true =>
    have hsub : x.submits i code = true := by simp [Execution.submits, hg, hcode, htime]
    simp [Execution.verdict, hsub, stampsFailed]

end

/-! ### Snippets that are no evidence -/

/-- A run that did not exit with 0 is kept from counting as a kill: it was not started, or
the watchdog or the sandbox's own diagnostics explain it, or a marker shows. -/
def Spared (box : Sandbox) (gate : Bool) (code : Str) (s : Snippet) : Prop :=
  gate = true → strip code ≠ [] → box.enabled = true → box.available = true →
    s.ending = .expired ∨ s.blamesSandbox = true ∨ Marked (clipStream s.kept)

theorem runVerdict_ne_fail {enabled available gate : Bool} {timeoutShown code : Str}
    {snippets : ℕ → Snippet} {i : ℕ} (hrc : (snippets i).ending.returncode ≠ some 0) :
    let box := boxOf enabled available timeoutShown snippets
    runVerdict box gate (i, 0) code ≠ .fail ↔ Spared box gate code (snippets i) := by
  intro box
  rw [runVerdict_eq, ne_eq, runVerdictOf_eq_fail]
  by_cases hc : strip code = []
  · have hres : (runPython box (i, 0) code).status ≠ .fail := by
      cases he : enabled <;> simp [runPython, box, boxOf, hc, he]
    simp [Spared, hc, hres]
  by_cases he : enabled = true
  swap
  · simp [Spared, runPython, box, boxOf, he]
  by_cases ha : available = true
  swap
  · simp [Spared, runPython, box, boxOf, he, ha, hc]
  obtain ⟨hfail, hstderr, -⟩ := runPython_boxOf timeoutShown snippets i he ha hc
  have hspared : Spared box gate code (snippets i) ↔ (gate = true →
      (snippets i).ending = .expired ∨ (snippets i).blamesSandbox = true ∨
        Marked (clipStream (snippets i).kept)) := by
    simp [Spared, hc, box, boxOf, he, ha]
  rw [hspared]
  by_cases hst : (runPython box (i, 0) code).status = .fail
  · have hfail' := hfail.mp hst
    rw [hstderr hst]
    simp [hst, hfail'.1, hfail'.2.2]
  · have hno := hfail.not.mp hst
    refine iff_of_true (fun h => hst h.2.1) fun _ => ?_
    by_contra hex
    push Not at hex
    exact hno ⟨hex.1, hrc, by simpa using hex.2.1⟩

section
variable [Host]

/-- The two clerks agree on a result exactly when its markers and its last exception line
do, and a snippet that did not exit with 0, whatever it died of, is no kill exactly when it
is spared. -/
theorem clerks_agree_iff :
    (∀ gate res, (runVerdictOf gate res = .fail ↔ stampsFailed gate res) ↔
      (gate = true → res.status = .fail → (Marked res.stderr ↔ NamesBroken res.stderr))) ∧
    ∀ (enabled available gate : Bool) (timeoutShown code : Str) (snippets : ℕ → Snippet) (i : ℕ),
      let box := boxOf enabled available timeoutShown snippets
      (snippets i).ending.returncode ≠ some 0 →
        (runVerdict box gate (i, 0) code ≠ .fail ↔ Spared box gate code (snippets i)) := by
  refine ⟨fun gate res => ?_, fun enabled available gate timeoutShown code snippets i =>
    runVerdict_ne_fail⟩
  rw [runVerdictOf_eq_fail, stampsFailed, stampOf_eq_failed]
  by_cases hg : gate = true
  · by_cases hs : res.status = .fail
    · simp [hg, hs, not_iff_not]
    · simp [hs]
  · simp [hg]

end

/-- An unknown name: `NameError`. -/
def unknownName : Snippet :=
  ⟨[], tracebackHead "assert answer == 42", .raised (txt "NameError")
    (txt "name 'answer' is not defined") ⟨1, Int.one_ne_zero⟩⟩

theorem nameError_kills :
    let box := boxOf true true (txt "8") fun _ => unknownName
    let code := txt "assert answer == 42"
    runVerdict box true (0, 0) code = .fail ∧
      ¬@stampsFailed Host.ascii true (runPython box (0, 0) code) := by
  let : Host := Host.ascii
  refine ⟨by decide +kernel, fun h => ?_⟩
  have hstamp : stampOf (runPython (boxOf true true (txt "8") fun _ => unknownName) (0, 0)
      (txt "assert answer == 42")) = .inconclusive := by decide +kernel
  exact absurd (hstamp.symm.trans h.2) (by decide)

end AskFable.Review

import AskFable.General.Separated
import AskFable.Python.Splitlines
import AskFable.Review.Clerks

/-!
# What is left of a stream

The runner keeps the beginning of a stream, the sandbox shows both ends of what was kept, and
the clerks read their verdict off the rest. The verdict is that of the whole stream exactly when
the ends show a marker where the stream has one, and their last exception line says the same.
-/
namespace AskFable.Review
open AskFable.Text AskFable.Python AskFable.Regex AskFable.Falsify AskFable.Separated

/-! ### The two cuts -/

/-- The loop of `_drain` over the chunks that `read` returns, an empty one at the end of the
stream; the list ends where `read` raises. -/
def drainLoop (cap : ℕ) : List Str → ℕ → List Str → Str
  | kept, _, [] => kept.flatten
  | kept, total, chunk :: chunks =>
    if chunk = [] then kept.flatten
    else
      drainLoop cap (if total < cap then kept ++ [chunk.take (cap - total)] else kept)
        (total + chunk.length) chunks

/-- `_drain`. -/
def drain (cap : ℕ) (chunks : List Str) : Str := drainLoop cap [] 0 chunks

/-- All that was read. -/
def streamOf (chunks : List Str) : Str := (chunks.takeWhile (· ≠ [])).flatten

theorem drainLoop_eq {cap total : ℕ} {read : Str} (htotal : total = read.length) {kept : List Str}
    (hkept : kept.flatten = read.take cap) (chunks : List Str) :
    drainLoop cap kept total chunks = (read ++ streamOf chunks).take cap := by
  induction chunks generalizing kept total read with
  | nil => simpa [drainLoop, streamOf] using hkept
  | cons chunk chunks ih =>
    rw [drainLoop, streamOf]
    by_cases hend : chunk = []
    · simpa [hend] using hkept
    · rw [if_neg hend, List.takeWhile_cons_of_pos (by simpa using hend), List.flatten_cons,
        ← List.append_assoc]
      refine ih (by rw [htotal, List.length_append]) ?_
      by_cases hroom : total < cap
      · rw [if_pos hroom, List.flatten_append, hkept, List.take_append, htotal]
        simp
      · rw [if_neg hroom, hkept, List.take_append, Nat.sub_eq_zero_of_le (by omega)]
        simp

/-- The runner keeps the beginning of the stream. -/
theorem drain_eq (cap : ℕ) (chunks : List Str) : drain cap chunks = (streamOf chunks).take cap := by
  have hstart : ([] : List Str).flatten = ([] : Str).take cap := by simp
  exact drainLoop_eq rfl hstart chunks

/-- What is shown of the beginning and of the end of what was kept. -/
def shownHead (stream : Str) : Str := (stream.take READ_CAP).take (MAX_OUTPUT / 2)

def shownTail (stream : Str) : Str :=
  let kept := stream.take READ_CAP
  kept.drop (kept.length - (MAX_OUTPUT - MAX_OUTPUT / 2))

/-- The line that stands for what is left out. -/
def elided (n : ℕ) : Str := txt "[… " ++ (natStr n ++ txt " chars elided …]")

theorem clipStream_take {stream : Str} (h : MAX_OUTPUT < stream.length) :
    ∃ n, clipStream (stream.take READ_CAP) =
      shownHead stream ++ cp '\n' :: (elided n ++ cp '\n' :: shownTail stream) := by
  have hlong : ¬(stream.take READ_CAP).length ≤ MAX_OUTPUT := by
    rw [List.length_take, not_le]
    exact lt_min (by decide) h
  refine ⟨(stream.take READ_CAP).length - MAX_OUTPUT, ?_⟩
  have hopen : txt "\n[… " = cp '\n' :: txt "[… " := rfl
  have hclose : txt " chars elided …]\n" = txt " chars elided …]" ++ [cp '\n'] := rfl
  rw [clipStream, if_neg hlong, hopen, hclose]
  simp only [shownHead, shownTail, elided, List.append_assoc, List.cons_append, List.nil_append]

theorem elided_unbroken (n : ℕ) : ∀ c ∈ elided n, isBreak c = false := by
  intro c hc
  have hparts : ((txt "[… " ++ txt " chars elided …]").all fun d => !isBreak d) = true := by decide
  have hparts : ∀ d ∈ txt "[… " ++ txt " chars elided …]", isBreak d = false := by
    simpa only [List.all_eq_true, Bool.not_eq_true'] using hparts
  rw [elided, List.mem_append, List.mem_append] at hc
  obtain hc | hc | hc := hc
  · exact hparts c (List.mem_append_left _ hc)
  · have hdigit := natStr_digits n c hc
    simp only [isDigit, Bool.and_eq_true, decide_eq_true_eq] at hdigit
    simp [isBreak]
    omega
  · exact hparts c (List.mem_append_right _ hc)

/-! ### What the parts name -/

section
variable [Host]

/-- The exceptions that lines of the text name. -/
def excNames (s : Str) : List Str := (splitlines s).filterMap fun line => excName (strip line)

/-- The last exception named is none of those that mean a failed check. -/
def Broken (names : List Str) : Prop := ∃ name ∈ names.getLast?, name ∉ GENUINE_FAILURES

theorem failureKind_eq_snippet_iff (stderr : Str) :
    failureKind stderr = .snippet ↔ Broken (excNames stderr) := by
  have hlast : ((splitlines stderr).reverse.findSome? fun line => excName (strip line)) =
      (excNames stderr).getLast? := by
    rw [excNames, ← List.head?_reverse, ← List.filterMap_reverse, List.head?_filterMap]
  rw [failureKind, hlast, Broken]
  cases (excNames stderr).getLast? with
  | none => simp
  | some name => by_cases hname : name ∈ GENUINE_FAILURES <;> simp [hname]

theorem failureKind_eq_iff (s t : Str) :
    failureKind s = failureKind t ↔ (Broken (excNames s) ↔ Broken (excNames t)) := by
  rw [← failureKind_eq_snippet_iff, ← failureKind_eq_snippet_iff]
  cases failureKind s <;> cases failureKind t <;> simp

theorem excName_of_head {c : Cp} (h : nameStart c = false) (s : Str) : excName (c :: s) = none := by
  simp [excName, EXC_LINE, run, Re.seqs, Re.opt, h]

theorem excName_nil : excName [] = none := by
  simp [excName, EXC_LINE, run, Re.seqs, Re.opt]

theorem excNames_append (a b : Str) : excNames (a ++ cp '\n' :: b) = excNames a ++ excNames b := by
  have hnil : excName (strip []) = none := excName_nil
  have hcr : false = true → ([] : Str) = [] := fun _ => rfl
  exact filterMap_linesFrom (f := fun line => excName (strip line)) hnil a b hcr

/-- A line that begins with what begins no name. -/
theorem excName_strip_of_head {c : Cp} (hspace : isSpace c = false) (hname : nameStart c = false)
    (s : Str) : excName (strip (c :: s)) = none := by
  rw [strip, List.dropWhile_cons_of_neg (by simp [hspace])]
  obtain ⟨t, ht⟩ | hnil : (∃ t, (c :: s).rdropWhile isSpace = c :: t) ∨
      (c :: s).rdropWhile isSpace = [] := by
    have hprefix := List.rdropWhile_prefix isSpace (l := c :: s)
    cases hdrop : (c :: s).rdropWhile isSpace with
    | nil => exact Or.inr rfl
    | cons d t =>
      rw [hdrop] at hprefix
      obtain ⟨rfl, -⟩ := List.cons_prefix_cons.mp hprefix
      exact Or.inl ⟨t, rfl⟩
  · rw [ht, excName_of_head hname]
  · rw [hnil, excName_nil]

/-- A single such line names no exception. -/
theorem excNames_unbroken {c : Cp} {s : Str} (hspace : isSpace c = false)
    (hname : nameStart c = false) (hbreak : ∀ d ∈ c :: s, isBreak d = false) :
    excNames (c :: s) = [] := by
  rw [excNames, splitlines, linesFrom_unbroken hbreak, if_neg (by simp)]
  simp [excName_strip_of_head hspace hname]

theorem excNames_clipped (a b : Str) (n : ℕ) :
    excNames (a ++ cp '\n' :: (elided n ++ cp '\n' :: b)) = excNames a ++ excNames b := by
  have helided : excNames (elided n) = [] :=
    excNames_unbroken (by decide) (by decide) (elided_unbroken n)
  rw [excNames_append, excNames_append, helided, List.nil_append]

end

/-- Every marker has a letter that the line in place of the middle has not. -/
theorem not_infix_elided {m : Str} (hm : m ∈ INCONCLUSIVE_MARKERS) (n : ℕ) : ¬m <:+: elided n := by
  have hforeign : ∀ m ∈ INCONCLUSIVE_MARKERS, (m.any fun c =>
      !(txt "[… " ++ txt " chars elided …]").contains c && !isDigit c) = true := by decide
  obtain ⟨c, hc, hout⟩ := List.any_eq_true.mp (hforeign m hm)
  have hout : c ∉ txt "[… " ++ txt " chars elided …]" ∧ isDigit c = false := by simpa using hout
  intro hin
  have hmem := hin.subset hc
  rw [elided, List.mem_append, List.mem_append] at hmem
  obtain hmem | hmem | hmem := hmem
  · exact hout.1 (List.mem_append_left _ hmem)
  · exact absurd (natStr_digits n c hmem) (by simp [hout.2])
  · exact hout.1 (List.mem_append_right _ hmem)

theorem marked_clipped (a b : Str) (n : ℕ) :
    Marked (a ++ cp '\n' :: (elided n ++ cp '\n' :: b)) ↔ Marked a ∨ Marked b := by
  have hfeed : ∀ m ∈ INCONCLUSIVE_MARKERS, cp '\n' ∉ m := by decide
  have hsides {m : Str} (hm : m ∈ INCONCLUSIVE_MARKERS) :
      m <:+: a ++ cp '\n' :: (elided n ++ cp '\n' :: b) ↔ m <:+: a ∨ m <:+: b := by
    rw [infix_append_cons_iff (hfeed m hm), infix_append_cons_iff (hfeed m hm)]
    simp [not_infix_elided hm n]
  constructor
  · rintro ⟨m, hm, hin⟩
    exact ((hsides hm).mp hin).imp (⟨m, hm, ·⟩) (⟨m, hm, ·⟩)
  · rintro (⟨m, hm, hin⟩ | ⟨m, hm, hin⟩)
    · exact ⟨m, hm, (hsides hm).mpr (Or.inl hin)⟩
    · exact ⟨m, hm, (hsides hm).mpr (Or.inr hin)⟩

theorem Marked.mono {s t : Str} (h : Marked s) (hst : s <:+: t) : Marked t :=
  let ⟨m, hm, hin⟩ := h
  ⟨m, hm, hin.trans hst⟩

theorem infix_of_shownHead (stream : Str) : shownHead stream <:+: stream :=
  ((List.take_prefix _ _).trans (List.take_prefix _ _)).isInfix

theorem infix_of_shownTail (stream : Str) : shownTail stream <:+: stream :=
  (List.drop_suffix _ _).isInfix.trans (List.take_prefix _ _).isInfix

/-- The result of a failing snippet shows its stderr cut at both places. -/
theorem stderr_of_fail {box : Sandbox} {place : ℕ × ℕ} {code : Str}
    (hfail : (runPython box place code).status = .fail) :
    (runPython box place code).stderr = clipStream (box.exec place code).stderr := by
  unfold runPython at hfail ⊢
  split_ifs at hfail ⊢
  dsimp only at hfail ⊢
  split_ifs at hfail ⊢
  split at hfail
  · nomatch hfail
  · split_ifs at hfail ⊢
    rfl

section
variable [Host]

/-- The ends that are shown say what the stream says: they hold a marker if the stream does, and
the last exception line in them says as the last of the stream does whether the check failed. -/
structure Shows (stream : Str) : Prop where
  marked : Marked stream → Marked (shownHead stream) ∨ Marked (shownTail stream)
  named : Broken (excNames stream) ↔
    Broken (excNames (shownHead stream) ++ excNames (shownTail stream))

omit [Host] in
/-- A failing snippet is a refutation unless a marker shows. -/
theorem runVerdictOf_iff {res : SandboxResult} (hfail : res.status = .fail) (stderr : Str) :
    (∀ gate, runVerdictOf gate res = runVerdictOf gate { res with stderr }) ↔
      (Marked res.stderr ↔ Marked stderr) := by
  have hmarked (t : Str) : INCONCLUSIVE_MARKERS.any (contains t) = true ↔ Marked t := by
    simp [Marked]
  have hshows (r : SandboxResult) (hr : r.status = .fail) (h : Marked r.stderr) :
      runVerdictOf true r = .inconclusive := by
    rw [runVerdictOf, hr]
    exact if_pos ((hmarked r.stderr).mpr h)
  have hhides (r : SandboxResult) (hr : r.status = .fail) (h : ¬Marked r.stderr) :
      runVerdictOf true r = .fail := (runVerdictOf_eq_fail true r).mpr ⟨rfl, hr, h⟩
  by_cases hres : Marked res.stderr <;> by_cases hfull : Marked stderr
  · refine iff_of_true (fun gate => ?_) (iff_of_true hres hfull)
    cases gate with
    | false => rfl
    | true => rw [hshows res hfail hres, hshows { res with stderr } hfail hfull]
  · refine iff_of_false (fun h => ?_) fun h => hfull (h.mp hres)
    have hsame := h true
    rw [hshows res hfail hres, hhides { res with stderr } hfail hfull] at hsame
    cases hsame
  · refine iff_of_false (fun h => ?_) fun h => hres (h.mpr hfull)
    have hsame := h true
    rw [hhides res hfail hres, hshows { res with stderr } hfail hfull] at hsame
    cases hsame
  · refine iff_of_true (fun gate => ?_) (iff_of_false hres hfull)
    cases gate with
    | false => rfl
    | true => rw [hhides res hfail hres, hhides { res with stderr } hfail hfull]

/-- Both verdicts on a failing snippet are those of its whole stderr exactly when the stream is
short or its ends show them. -/
theorem capture_keeps_verdicts_iff (box : Sandbox) (place : ℕ × ℕ) (code : Str)
    (chunks : List Str) (hstream : (box.exec place code).stderr = drain READ_CAP chunks)
    (hfail : (runPython box place code).status = .fail) :
    let res := runPython box place code
    let full : SandboxResult := { res with stderr := streamOf chunks }
    (failureKind res.stderr = failureKind full.stderr ∧
        ∀ gate, runVerdict box gate place code = runVerdictOf gate full) ↔
      (streamOf chunks).length ≤ MAX_OUTPUT ∨ Shows (streamOf chunks) := by
  have hstderr :
      (runPython box place code).stderr = clipStream ((streamOf chunks).take READ_CAP) := by
    rw [← drain_eq, ← hstream]
    exact stderr_of_fail hfail
  generalize streamOf chunks = stream at hstderr ⊢
  intro res full
  have hverdict : (∀ gate, runVerdict box gate place code = runVerdictOf gate full) ↔
      (Marked res.stderr ↔ Marked stream) := runVerdictOf_iff hfail stream
  rw [hverdict, failureKind_eq_iff]
  change (_ ↔ Broken (excNames stream)) ∧ _ ↔ _
  by_cases hshort : stream.length ≤ MAX_OUTPUT
  · have hsame : res.stderr = stream := by
      change (runPython box place code).stderr = stream
      have hfits : stream.length ≤ READ_CAP := hshort.trans (by decide)
      rw [hstderr, List.take_of_length_le hfits, clipStream, if_pos hshort]
    rw [hsame]
    exact iff_of_true ⟨Iff.rfl, Iff.rfl⟩ (Or.inl hshort)
  · obtain ⟨n, hclip⟩ := clipStream_take (not_le.mp hshort)
    have hmarked : Marked res.stderr ↔ Marked (shownHead stream) ∨ Marked (shownTail stream) := by
      change Marked (runPython box place code).stderr ↔ _
      rw [hstderr, hclip, marked_clipped]
    have hnames : excNames res.stderr =
        excNames (shownHead stream) ++ excNames (shownTail stream) := by
      change excNames (runPython box place code).stderr = _
      rw [hstderr, hclip, excNames_clipped]
    have hless : Marked (shownHead stream) ∨ Marked (shownTail stream) → Marked stream := by
      rintro (h | h)
      · exact h.mono (infix_of_shownHead stream)
      · exact h.mono (infix_of_shownTail stream)
    rw [hmarked, hnames, or_iff_right hshort]
    constructor
    · rintro ⟨hnamed, hmarks⟩
      exact ⟨hmarks.mpr, hnamed.symm⟩
    · rintro ⟨hmarks, hnamed⟩
      exact ⟨hnamed.symm, hless, hmarks⟩

theorem excNames_replicate (n : ℕ) : excNames (List.replicate n (cp '#')) = [] := by
  cases n with
  | zero => rfl
  | succ n =>
    refine excNames_unbroken (by decide) (by decide) fun d hd => ?_
    rw [List.eq_of_mem_replicate (show d ∈ List.replicate (n + 1) (cp '#') from hd)]
    decide

end

/-- A snippet that cannot import a module, and says so. -/
theorem short_stderr_kept :
    let _ : Host := Host.ascii
    let stderr := tracebackHead "import numpy" ++ txt "\nModuleNotFoundError: No module\n"
    let box : Sandbox := ⟨true, true, txt "8", fun _ _ => ⟨some 1, false, [], stderr⟩⟩
    let res := runPython box (0, 0) (txt "import numpy")
    (failureKind res.stderr = failureKind stderr ∧
        ∀ gate, runVerdict box gate (0, 0) (txt "import numpy") =
          runVerdictOf gate { res with stderr }) ↔
      stderr.length ≤ MAX_OUTPUT ∨ Shows stderr := by
  intro host stderr box res
  have hread : stderr = drain READ_CAP [stderr] := by
    rw [drain_eq]
    decide +kernel
  have hfail : (runPython box (0, 0) (txt "import numpy")).status = .fail := by decide +kernel
  exact capture_keeps_verdicts_iff box (0, 0) (txt "import numpy") [stderr] hread hfail

/-- A snippet that fills what the runner keeps before it cannot import a module. -/
def flooded : Snippet :=
  ⟨[], List.replicate READ_CAP (cp '#'), .raised (txt "ModuleNotFoundError")
    (txt "No module named 'numpy'") ⟨1, Int.one_ne_zero⟩⟩

theorem flooded_kept : flooded.kept = List.replicate READ_CAP (cp '#') :=
  List.take_left' List.length_replicate

theorem not_infix_replicate {m : Str} (hm : m.all (· == cp '#') = false) (n : ℕ) :
    ¬m <:+: List.replicate n (cp '#') := by
  intro hin
  obtain ⟨c, hc, hne⟩ := List.all_eq_false.mp hm
  exact hne (by simpa using List.eq_of_mem_replicate (hin.subset hc))

theorem flooded_blameless : flooded.blamesSandbox = false := by
  have hno {m : Str} (hm : m.all (· == cp '#') = false) : ¬m <:+: flooded.kept := by
    rw [flooded_kept]
    exact not_infix_replicate hm READ_CAP
  rw [Snippet.blamesSandbox, Bool.or_eq_false_iff]
  constructor
  · rw [List.any_eq_false]
    intro m hm hprefix
    have hnotall : ∀ m ∈ SETUP_PREFIXES, m.all (· == cp '#') = false := by decide
    exact hno (hnotall m hm)
      ((List.isPrefixOf_iff_prefix.mp hprefix).isInfix.trans (List.dropWhile_suffix _).isInfix)
  · rw [Bool.eq_false_iff, ne_eq, contains_iff]
    exact hno (by decide)

theorem flood_read_as_check :
    ¬∀ (_ : Host) (box : Sandbox) (place : ℕ × ℕ) (code : Str) (chunks : List Str),
      (box.exec place code).stderr = drain READ_CAP chunks →
      (runPython box place code).status = .fail →
      let res := runPython box place code
      failureKind res.stderr = failureKind (streamOf chunks) ∧
        ∀ gate, runVerdict box gate place code =
          runVerdictOf gate { res with stderr := streamOf chunks } := by
  intro hall
  let : Host := Host.ascii
  let code := txt "import numpy"
  let box := boxOf true true (txt "8") fun _ => flooded
  let stderr := flooded.ending.stderr flooded.wrote
  have hstream : streamOf [stderr] = stderr := by simp [streamOf, stderr, Ending.stderr, flooded]
  have hfail : (runPython box (0, 0) code).status = .fail :=
    (runPython_boxOf (txt "8") (fun _ => flooded) 0 rfl rfl (by decide)).1.mpr
      ⟨by decide, by decide, flooded_blameless⟩
  have hkind := (hall this box (0, 0) code [stderr] (by rw [drain_eq, hstream]; rfl) hfail).1
  have hkept : stderr.take READ_CAP = List.replicate READ_CAP (cp '#') := flooded_kept
  have hlong : MAX_OUTPUT < stderr.length := by
    have hcap : READ_CAP ≤ stderr.length := by
      rw [← List.length_replicate (n := READ_CAP) (a := cp '#'), ← hkept]
      exact List.length_take_le' _ _
    exact lt_of_lt_of_le (by decide) hcap
  obtain ⟨n, hclip⟩ := clipStream_take hlong
  have hshown : excNames (clipStream (stderr.take READ_CAP)) = [] := by
    rw [hclip, excNames_clipped, shownHead, shownTail, hkept, List.take_replicate,
      List.drop_replicate, excNames_replicate, excNames_replicate]
    rfl
  have hfull : excNames stderr = [txt "ModuleNotFoundError"] := by
    have hlast : excNames (Ending.lastLine (txt "ModuleNotFoundError")
        (txt "No module named 'numpy'") ++ [cp '\n']) = [txt "ModuleNotFoundError"] := by
      decide +kernel
    change excNames (List.replicate READ_CAP (cp '#') ++ cp '\n' :: _) = _
    rw [excNames_append, excNames_replicate, hlast]
    rfl
  have hres : failureKind (runPython box (0, 0) code).stderr = .check := by
    rw [stderr_of_fail hfail]
    have hnot : ¬Broken (excNames (clipStream (stderr.take READ_CAP))) := by simp [hshown, Broken]
    have hkind := (failureKind_eq_snippet_iff (clipStream (stderr.take READ_CAP))).not.mpr hnot
    cases hcase : failureKind (clipStream (stderr.take READ_CAP)) with
    | check => exact hcase
    | snippet => exact absurd hcase hkind
  have hbroken : failureKind stderr = .snippet := by
    rw [failureKind_eq_snippet_iff, hfull]
    exact ⟨_, rfl, by decide⟩
  rw [hres, hstream, hbroken] at hkind
  nomatch hkind

end AskFable.Review

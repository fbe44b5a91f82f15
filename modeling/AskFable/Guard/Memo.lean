import AskFable.General.Lines
import AskFable.General.Lru
import AskFable.Guard.Fold

/-!
# The memo of the patterns

The operator's terms are read from files that the environment names. The compiled patterns are
memoised on a fingerprint of the file, its modification time in whole seconds and its size, so an
edit that leaves the fingerprint as it was is not seen.
-/
namespace AskFable.Guard
open AskFable.Text AskFable.Python AskFable.Python.Bytes AskFable.Python.Utf8 AskFable.Regex

/-- The variables that name the operator's files. -/
inductive Var
  | ASK_FABLE_DENYLIST_FILE
  | ASK_FABLE_ALLOWLIST_FILE
  deriving DecidableEq

/-- A file: its modification time in whole seconds, its bytes, and whether it can be opened. -/
structure File where
  mtime : ℤ
  data : Bytes
  readable : Bool

/-- The environment and the files. -/
structure World where
  environ : Var → Option Str
  files : Str → Option File

/-- `UnicodeDecodeError`. -/
inductive DecodeError
  | mk
  deriving DecidableEq

/-! ### Reading the file -/

/-- Universal newlines: a carriage return ends a line, alone or before a newline. -/
def universal : Str → Str
  | [] => []
  | c :: s =>
    if c = cp '\r' then
      if s.head? = some (cp '\n') then universal s else cp '\n' :: universal s
    else c :: universal s

/-- The terms in the text of a file. -/
def termsIn (text : Str) : List Str :=
  ((Lines.lines (cp '\n') (universal text)).filter fun ln =>
    strip ln ≠ [] && ln.head? ≠ some (cp '#')).map strip

/-- `_extra_terms`. -/
def extraTerms (w : World) (var : Var) : Except DecodeError (List Str) :=
  match (w.environ var).getD [] with
  | [] => .ok []
  | path =>
    match w.files path with
    | none => .ok []
    | some file =>
      if file.readable then
        match decode file.data with
        | some text => .ok (termsIn text)
        | none => .error .mk
      else .ok []

/-- `_fingerprint`. -/
def fingerprint (w : World) (var : Var) : Option (ℤ × ℕ) :=
  match (w.environ var).getD [] with
  | [] => none
  | path =>
    match w.files path with
    | some file => some (file.mtime, file.data.length)
    | none => some (0, 0)

/-! ### The check -/

variable (u : Unicode)

/-- The offense pattern compiled from the file as it is. -/
def freshPattern (w : World) : Except DecodeError Re :=
  (extraTerms w .ASK_FABLE_DENYLIST_FILE).map (pattern u)

/-- The allow pattern compiled from the file as it is. -/
def freshAllow (w : World) : Except DecodeError (Option Re) :=
  (extraTerms w .ASK_FABLE_ALLOWLIST_FILE).map (allowPattern u)

/-- `lru_cache(maxsize=4)`. -/
def MAXSIZE : ℕ := 4

/-- The memos of `_pattern` and `_allow_pattern`. -/
structure Memo where
  denied : List (Option (ℤ × ℕ) × Re)
  allowed : List (Option (ℤ × ℕ) × Option Re)

/-- `check_denylist` with the memos. -/
def checkMemo (w : World) (memo : Memo) (prompt : Str) :
    Except DecodeError (Bool × Str) × Memo :=
  if strip prompt = [] then (.ok (true, []), memo)
  else
    match Lru.call MAXSIZE (fingerprint w .ASK_FABLE_ALLOWLIST_FILE) (freshAllow u w)
        memo.allowed with
    | (.error e, allowed) => (.error e, { memo with allowed })
    | (.ok allow, allowed) =>
      match Lru.call MAXSIZE (fingerprint w .ASK_FABLE_DENYLIST_FILE) (freshPattern u w)
          memo.denied with
      | (.error e, denied) => (.error e, ⟨denied, allowed⟩)
      | (.ok offense, denied) => (.ok (checkWith u offense allow prompt), ⟨denied, allowed⟩)

/-- The check with the patterns compiled afresh. -/
def checkFresh (w : World) (prompt : Str) : Except DecodeError (Bool × Str) :=
  if strip prompt = [] then .ok (true, [])
  else
    match freshAllow u w with
    | .error e => .error e
    | .ok allow =>
      match freshPattern u w with
      | .error e => .error e
      | .ok offense => .ok (checkWith u offense allow prompt)

/-! ### Runs -/

inductive Event
  /-- The file is written, or replaced. -/
  | write (path : Str) (file : File)
  | remove (path : Str)
  | setenv (var : Var) (path : Option Str)
  | check (prompt : Str)

/-- What an event changes outside. -/
def World.step (w : World) : Event → World
  | .write path file => { w with files := Function.update w.files path (some file) }
  | .remove path => { w with files := Function.update w.files path none }
  | .setenv var path => { w with environ := Function.update w.environ var path }
  | .check _ => w

/-- The verdicts of a run. -/
def verdicts (w : World) (memo : Memo) : List Event → List (Except DecodeError (Bool × Str))
  | [] => []
  | .check prompt :: es =>
    (checkMemo u w memo prompt).1 :: verdicts w (checkMemo u w memo prompt).2 es
  | e :: es => verdicts (w.step e) memo es

/-- The verdicts with the patterns compiled afresh each time. -/
def freshVerdicts (w : World) : List Event → List (Except DecodeError (Bool × Str))
  | [] => []
  | .check prompt :: es => checkFresh u w prompt :: freshVerdicts w es
  | e :: es => freshVerdicts (w.step e) es

/-! ### What the fingerprints stand for -/

/-- The fingerprints looked up so far, with the patterns of the files at the time. -/
structure History where
  denied : List (Option (ℤ × ℕ) × Re)
  allowed : List (Option (ℤ × ℕ) × Option Re)

/-- A check looks up both files, the offense terms only when the phrases could be read. -/
def History.record (h : History) (w : World) (prompt : Str) : History :=
  if strip prompt = [] then h
  else
    ⟨if (freshAllow u w).isOk then
        Lru.record (fingerprint w .ASK_FABLE_DENYLIST_FILE) (freshPattern u w) h.denied
      else h.denied,
      Lru.record (fingerprint w .ASK_FABLE_ALLOWLIST_FILE) (freshAllow u w) h.allowed⟩

/-- At each check a fingerprint that was looked up before, with fewer than four others since,
stands for the pattern it stood for then. -/
def Honest (w : World) (h : History) : List Event → Prop
  | [] => True
  | .check prompt :: es =>
    (strip prompt ≠ [] →
      Lru.Steady MAXSIZE (fingerprint w .ASK_FABLE_ALLOWLIST_FILE) (freshAllow u w) h.allowed ∧
      ((freshAllow u w).isOk = true →
        Lru.Steady MAXSIZE (fingerprint w .ASK_FABLE_DENYLIST_FILE) (freshPattern u w) h.denied)) ∧
    Honest w (h.record u w prompt) es
  | e :: es => Honest (w.step e) h es

/-- The memos that were never wrong. -/
def History.memo (h : History) : Memo :=
  ⟨Lru.remembered MAXSIZE h.denied, Lru.remembered MAXSIZE h.allowed⟩

variable {u}

theorem checkMemo_eq {w : World} {h : History} {prompt : Str}
    (hallow : strip prompt ≠ [] →
      Lru.Steady MAXSIZE (fingerprint w .ASK_FABLE_ALLOWLIST_FILE) (freshAllow u w) h.allowed)
    (hdeny : strip prompt ≠ [] → (freshAllow u w).isOk = true →
      Lru.Steady MAXSIZE (fingerprint w .ASK_FABLE_DENYLIST_FILE) (freshPattern u w) h.denied) :
    checkMemo u w h.memo prompt = (checkFresh u w prompt, (h.record u w prompt).memo) := by
  unfold checkMemo checkFresh History.record
  by_cases hblank : strip prompt = []
  · rw [if_pos hblank, if_pos hblank, if_pos hblank]
  rw [if_neg hblank, if_neg hblank, if_neg hblank, History.memo,
    Lru.call_of_steady (hallow hblank)]
  cases hallowed : freshAllow u w with
  | error e => simp [Except.isOk, Except.toBool, History.memo]
  | ok allow =>
    have hok : (freshAllow u w).isOk = true := by rw [hallowed]; rfl
    dsimp only
    rw [Lru.call_of_steady (hdeny hblank hok)]
    cases hpattern : freshPattern u w with
    | error e => simp [Except.isOk, Except.toBool, History.memo]
    | ok offense => simp [Except.isOk, Except.toBool, History.memo]

/-- With honest fingerprints every verdict is that of the files as they are. -/
theorem verdicts_eq_fresh {w : World} {h : History} {es : List Event} (hes : Honest u w h es) :
    verdicts u w h.memo es = freshVerdicts u w es := by
  induction es generalizing w h with
  | nil => rfl
  | cons e es ih =>
    cases e with
    | check prompt =>
      obtain ⟨hsteady, hrest⟩ := hes
      rw [verdicts, freshVerdicts, checkMemo_eq (fun hne => (hsteady hne).1)
        fun hne => (hsteady hne).2, ih hrest]
    | _ => exact ih hes

/-- From a start with nothing memoised, whatever is edited, replaced, removed or renamed between
the checks. -/
theorem patterns_coherent {w : World} {es : List Event} (hes : Honest u w ⟨[], []⟩ es) :
    verdicts u w ⟨[], []⟩ es = freshVerdicts u w es :=
  verdicts_eq_fresh hes

/-- No files, and nothing set. -/
def bare : World := ⟨fun _ => none, fun _ => none⟩

/-- A check, an edit of the operator's file to `data` within the second, and the check again. -/
def edited (data : Bytes) : List Event :=
  [.setenv .ASK_FABLE_DENYLIST_FILE (some (txt "deny")),
    .write (txt "deny") ⟨5, [102, 111, 111], true⟩, .check (txt "foo"),
    .write (txt "deny") ⟨5, data, true⟩, .check (txt "foo")]

theorem honest_edited : Honest accents bare ⟨[], []⟩ (edited [98, 97, 114, 114]) := by
  have hfoo : strip (txt "foo") ≠ [] := by decide
  refine ⟨fun _ => ⟨.of_forall (by simp), fun _ => .of_forall (by simp)⟩,
    fun _ => ⟨.of_forall ?_, fun _ => .of_forall ?_⟩, trivial⟩
  · rw [History.record, if_neg hfoo]
    rintro entry hentry -
    obtain rfl := List.mem_singleton.mp hentry
    rfl
  · rw [History.record, if_neg hfoo]
    intro entry hentry hkey
    obtain rfl := List.mem_singleton.mp hentry
    exact absurd hkey (by decide)

theorem patterns_coherent_edited :
    verdicts accents bare ⟨[], []⟩ (edited [98, 97, 114, 114]) =
      freshVerdicts accents bare (edited [98, 97, 114, 114]) :=
  patterns_coherent honest_edited

/-- An edit within the second that leaves the size is not seen. -/
theorem edit_unseen :
    verdicts accents bare ⟨[], []⟩ (edited [98, 97, 114]) =
        [.ok (false, txt "offensive-security content"),
          .ok (false, txt "offensive-security content")] ∧
      freshVerdicts accents bare (edited [98, 97, 114]) =
        [.ok (false, txt "offensive-security content"), .ok (true, [])] := by
  decide +kernel

end AskFable.Guard

import AskFable.General.Lines
import AskFable.Python.JsonText
import AskFable.Python.Utf8

/-!
# Reading repository files

The kernel under `context_pack`: a spec is split into a path and a line range, the path is
resolved and held against the project root and the blocklist, and the file is read within a
cap. A rejection is a value; only a bound of too many digits gets out as an exception.
-/
namespace AskFable.Pack
open AskFable.Text AskFable.Python AskFable.Python.Bytes AskFable.Python.Utf8

/-- The Unicode tables of the runtime, beyond ASCII. -/
class Unicode where
  decimal : Cp → Option (Fin 10)
  folded : Cp → Str

/-- A runtime that knows no character beyond ASCII. -/
@[reducible] def Unicode.ascii : Unicode := ⟨fun _ => none, fun c => [c]⟩

/-- `\d` in a `str` pattern. -/
def isDecimal [Unicode] (c : Cp) : Bool :=
  isDigit c || (128 ≤ c.val && (Unicode.decimal c).isSome)

def decimalValue [Unicode] (c : Cp) : ℕ :=
  if isDigit c then c.val - 48 else ((Unicode.decimal c).map Fin.val).getD 0

/-- `int(s)` of decimals; `none` is the `ValueError` of too many digits. -/
def intDecimals [Unicode] (s : Str) : Option ℕ :=
  if JsonText.MAX_INT_DIGITS < s.length then none
  else some (s.foldl (fun n c => n * 10 + decimalValue c) 0)

/-- `str.casefold`. -/
def casefold [Unicode] (s : Str) : Str :=
  s.flatMap fun c => if c.val < 128 then [lowerAscii c] else Unicode.folded c

/-- Why a spec was rejected; the last two come from the budget layer. -/
inductive Reason
  | escape
  | notFile
  | unreadable
  | tooLarge
  | binary
  | blocked
  | badRange
  | budgetExhausted
  | maxFiles
  deriving DecidableEq, Repr

def Reason.value : Reason → Str
  | .escape => txt "escape"
  | .notFile => txt "not_file"
  | .unreadable => txt "unreadable"
  | .tooLarge => txt "too_large"
  | .binary => txt "binary"
  | .blocked => txt "blocked"
  | .badRange => txt "bad_range"
  | .budgetExhausted => txt "budget_exhausted"
  | .maxFiles => txt "max_files"

/-- The bounds are both there or both absent. -/
structure Resolved where
  absPath : Str
  relPath : Str
  range : Option (ℕ × ℕ)
  deriving DecidableEq

/-- A path without links, as its components. -/
def RealPath := {parts : List Str // ∀ p ∈ parts, p ≠ [] ∧ cp '/' ∉ p ∧ p ≠ txt "." ∧ p ≠ txt ".."}

/-- `sep.join(parts)`. -/
def joined (sep : Str) : List Str → Str
  | [] => []
  | [p] => p
  | p :: q :: ps => p ++ sep ++ joined sep (q :: ps)

def RealPath.str (p : RealPath) : Str := cp '/' :: joined (txt "/") p.val

/-- An open file: the size `fstat` gives and the bytes a reader gets, which may be others when
the file is being written. -/
structure OpenFile where
  size : ℕ
  data : Bytes

/-- The file system; `none` is an `OSError`, or for `realpath` also a `ValueError`. -/
structure Fs where
  realpath : Str → Option RealPath
  isfile : RealPath → Bool
  read : Str → Option OpenFile

section
variable [Unicode]

/-- `_RANGE_RE`, `^(.+):(\d+)-(\d+)$` on a stripped spec, read from its end. -/
def rangeMatch (spec : Str) : Option (Str × Str × Str) :=
  let stop := spec.rtakeWhile isDecimal
  match (spec.rdropWhile isDecimal).reverse with
  | dash :: more =>
    let start := more.reverse.rtakeWhile isDecimal
    match (more.reverse.rdropWhile isDecimal).reverse with
    | colon :: path =>
      if stop ≠ [] ∧ dash = cp '-' ∧ start ≠ [] ∧ colon = cp ':' ∧ path ≠ [] ∧ cp '\n' ∉ path then
        some (path.reverse, start, stop)
      else none
    | [] => none
  | [] => none

/-- `_ATTEMPT_RE`, `^\d*-?\d*$`. -/
def attempt (tail : Str) : Bool :=
  match tail.dropWhile isDecimal with
  | [] => true
  | c :: more => c = cp '-' && more.all isDecimal

/-- What stands before the last colon and after it. -/
def rpartitionColon (spec : Str) : Option (Str × Str) :=
  if cp ':' ∈ spec then
    some ((spec.rdropWhile (· ≠ cp ':')).dropLast, spec.rtakeWhile (· ≠ cp ':'))
  else none

/-- `_parse_spec`; `none` is a `ValueError`. -/
def parseSpec (spec : Str) : Option (Except Reason (Str × Option (ℕ × ℕ))) :=
  let spec := strip spec
  match rangeMatch spec with
  | some (path, start, stop) =>
    (intDecimals start).bind fun start => (intDecimals stop).bind fun stop =>
      if start < 1 ∨ stop < start then some (.error .badRange)
      else some (.ok (path, some (start, stop)))
  | none =>
    match rpartitionColon spec with
    | some (head, tail) =>
      if head ≠ [] ∧ attempt tail = true ∧ tail.any isDecimal = true then some (.error .badRange)
      else some (.ok (spec, none))
    | none => some (.ok (spec, none))

/-- The components of a relative path, as `Path.parts` has them. -/
def pathParts (rel : Str) : List Str :=
  (rel.splitOn (cp '/')).filter fun p => p ≠ [] ∧ p ≠ txt "."

/-- `_is_blocked`. -/
def isBlocked (rel : Str) (extra : List Str) : Bool :=
  let parts := (pathParts rel).map casefold
  let base := parts.getLast?.getD []
  parts.contains (txt ".git") || base == txt ".env" || (txt ".env.").isPrefixOf base ||
    extra.any fun tok =>
      !tok.isEmpty && (parts.contains (casefold tok) || base == casefold tok)

/-- `os.path.join`. -/
def joinPath (root path : Str) : Str :=
  if path.head? = some (cp '/') then path
  else if root = [] ∨ root.getLast? = some (cp '/') then root ++ path
  else root ++ cp '/' :: path

/-- `os.path.commonpath` of two real paths. -/
def commonpath : List Str → List Str → List Str
  | p :: ps, q :: qs => if p = q then p :: commonpath ps qs else []
  | _, _ => []

/-- `os.path.relpath` of a path below the root. -/
def relpath (target root : RealPath) : Str :=
  if target.val.length = root.val.length then txt "."
  else joined (txt "/") (target.val.drop root.val.length)

/-- `resolve_within`; `none` is a `ValueError`. -/
def resolveWithin (fs : Fs) (root spec : Str) (extra : List Str) :
    Option (Except Reason Resolved) :=
  (parseSpec spec).map fun parsed => do
    let (path, range) ← parsed
    if strip path = [] then throw .notFile
    match fs.realpath root with
    | none => throw .escape
    | some realRoot =>
      match fs.realpath (joinPath realRoot.str path) with
      | none => throw .escape
      | some target =>
        if commonpath realRoot.val target.val ≠ realRoot.val then throw .escape
        let rel := relpath target realRoot
        if isBlocked rel extra then throw .blocked
        if !fs.isfile target then throw .notFile
        return ⟨target.str, rel, range⟩

end

/-! ### Bounds of too many digits -/

section
variable [Unicode]

/-- A spec with a line range, as `_RANGE_RE` reads it. -/
structure IsRange (spec path start stop : Str) : Prop where
  eq : spec = path ++ cp ':' :: start ++ cp '-' :: stop
  path : path ≠ [] ∧ cp '\n' ∉ path
  start : start ≠ [] ∧ start.all isDecimal = true
  stop : stop ≠ [] ∧ stop.all isDecimal = true

theorem isDecimal_dash : isDecimal (cp '-') = false := by
  have hdigit : isDigit (cp '-') = false := by decide
  have hlow : ¬128 ≤ (cp '-').val := by decide
  simp [isDecimal, hdigit, hlow]

theorem isDecimal_colon : isDecimal (cp ':') = false := by
  have hdigit : isDigit (cp ':') = false := by decide
  have hlow : ¬128 ≤ (cp ':').val := by decide
  simp [isDecimal, hdigit, hlow]

theorem rangeMatch_eq_some (spec path start stop : Str) :
    rangeMatch spec = some (path, start, stop) ↔ IsRange spec path start stop := by
  constructor
  · intro h
    unfold rangeMatch at h
    simp only at h
    split at h
    · rename_i dash more hmore
      split at h
      · rename_i colon rest hrest
        split_ifs at h with hshape
        obtain ⟨hstop, rfl, hstart, rfl, hpath, hline⟩ := hshape
        simp only [Option.some.injEq, Prod.mk.injEq] at h
        obtain ⟨rfl, rfl, rfl⟩ := h
        have hspec : spec = more.reverse ++ cp '-' :: spec.rtakeWhile isDecimal := by
          conv_lhs => rw [← List.rdropWhile_append_rtakeWhile (p := isDecimal) (l := spec),
            List.reverse_eq_cons_iff.mp hmore]
          simp
        have hmore' : more.reverse =
            rest.reverse ++ cp ':' :: more.reverse.rtakeWhile isDecimal := by
          conv_lhs => rw [← List.rdropWhile_append_rtakeWhile (p := isDecimal)
            (l := more.reverse), List.reverse_eq_cons_iff.mp hrest]
          simp
        refine ⟨?_, ⟨by simpa using hpath, by simpa using hline⟩, ⟨hstart, ?_⟩, hstop, ?_⟩
        · rw [← hmore']
          exact hspec
        · exact List.all_eq_true.mpr fun c hc => List.mem_rtakeWhile_imp hc
        · exact List.all_eq_true.mpr fun c hc => List.mem_rtakeWhile_imp hc
      · cases h
    · cases h
  · rintro ⟨rfl, ⟨hpath, hline⟩, ⟨hstart, hstarts⟩, hstop, hstops⟩
    obtain ⟨htake, hdrop⟩ :=
      Lines.rspan_append_cons (path ++ cp ':' :: start) isDecimal_dash hstops
    obtain ⟨htake', hdrop'⟩ := Lines.rspan_append_cons path isDecimal_colon hstarts
    have hassoc : path ++ cp ':' :: start ++ cp '-' :: stop =
        (path ++ cp ':' :: start) ++ cp '-' :: stop := rfl
    rw [hassoc, rangeMatch]
    simp only [htake, hdrop, List.reverse_append, List.reverse_singleton, List.singleton_append]
    simp [htake', hdrop', hstop, hstart, hpath, hline]

/-- A spec whose range has a bound that `int` refuses to read. -/
def Overlong (spec : Str) : Prop :=
  ∃ path start stop, IsRange (strip spec) path start stop ∧
    (JsonText.MAX_INT_DIGITS < start.length ∨ JsonText.MAX_INT_DIGITS < stop.length)

theorem intDecimals_eq_none (s : Str) :
    intDecimals s = none ↔ JsonText.MAX_INT_DIGITS < s.length := by
  unfold intDecimals
  split_ifs with h <;> simp [h]

theorem parseSpec_eq_none (spec : Str) : parseSpec spec = none ↔ Overlong spec := by
  unfold parseSpec
  simp only
  cases hmatch : rangeMatch (strip spec) with
  | none =>
    have hnot : ¬Overlong spec := by
      rintro ⟨path, start, stop, hrange, -⟩
      rw [(rangeMatch_eq_some _ _ _ _).mpr hrange] at hmatch
      cases hmatch
    simp only [hnot, iff_false]
    split
    · split_ifs <;> simp
    · simp
  | some found =>
    obtain ⟨path, start, stop⟩ := found
    have hlong : Overlong spec ↔ JsonText.MAX_INT_DIGITS < start.length ∨
        JsonText.MAX_INT_DIGITS < stop.length := by
      refine ⟨?_, fun h => ⟨path, start, stop, (rangeMatch_eq_some _ _ _ _).mp hmatch, h⟩⟩
      rintro ⟨path', start', stop', hrange, h⟩
      rw [(rangeMatch_eq_some _ _ _ _).mpr hrange] at hmatch
      simp only [Option.some.injEq, Prod.mk.injEq] at hmatch
      obtain ⟨-, rfl, rfl⟩ := hmatch
      exact h
    rw [hlong, ← intDecimals_eq_none, ← intDecimals_eq_none]
    cases hstart : intDecimals start with
    | none => simp [hstart]
    | some a =>
      cases hstop : intDecimals stop with
      | none => simp [hstart, hstop]
      | some b =>
        simp only [hstart, hstop, Option.bind_some]
        split_ifs <;> simp

/-- Only such a bound makes `resolve_within` raise. -/
theorem resolveWithin_eq_none (fs : Fs) (root spec : Str) (extra : List Str) :
    resolveWithin fs root spec extra = none ↔ Overlong spec := by
  rw [resolveWithin, Option.map_eq_none_iff, parseSpec_eq_none]

theorem overlong_strip (spec : Str) : Overlong (strip spec) ↔ Overlong spec := by
  simp only [Overlong, strip_strip]

end

/-! ### Content -/

def SKIP_CHUNK : ℕ := 2 ^ 20

/-- `fh.readline(limit)`, with what is left of the file. -/
def readline (limit : ℕ) (data : Bytes) : Bytes × Bytes :=
  let window := data.take limit
  let piece := window.take ((window.takeWhile (· ≠ 10)).length + 1)
  (piece, data.drop piece.length)

/-- Where the range reader stands: the file ahead, what it has collected, the lines behind it,
and whether the line it is in has begun. -/
structure LineReader where
  rest : Bytes
  collected : Bytes
  lineno : ℕ
  started : Bool

/-- One `readline` of a range: to go on with, or the end of the loops. -/
def LineReader.step (start stop maxBytes : ℕ) (s : LineReader) :
    Except (Except Reason LineReader) LineReader :=
  let keep : Bool := start ≤ s.lineno + 1
  let limit := if keep then maxBytes + 1 - s.collected.length else SKIP_CHUNK
  let (piece, rest) := readline limit s.rest
  let nextLine (s : LineReader) : Except (Except Reason LineReader) LineReader :=
    let s' : LineReader := ⟨s.rest, s.collected, s.lineno + 1, false⟩
    if s.lineno + 1 < stop then .ok s' else .error (.ok s')
  if piece = [] then
    if s.started then nextLine s else .error (.ok s)
  else
    let collected := if keep then s.collected ++ piece else s.collected
    if keep = true ∧ maxBytes < collected.length then .error (.error .tooLarge)
    else if piece.getLast? = some 10 then nextLine ⟨rest, collected, s.lineno, true⟩
    else .ok ⟨rest, collected, s.lineno, true⟩

/-- The loops of a range read. Every `readline` but the last two takes a byte. -/
def readRange (start stop maxBytes : ℕ) : ℕ → LineReader → Except Reason LineReader
  | 0, s => .ok s
  | fuel + 1, s =>
    match s.step start stop maxBytes with
    | .ok s => readRange start stop maxBytes fuel s
    | .error result => result

/-- `read_content`: the text and the number of bytes. -/
def readContent (fs : Fs) (r : Resolved) (maxBytes : ℕ) : Except Reason (Str × ℕ) :=
  match fs.read r.absPath with
  | none => throw .unreadable
  | some file =>
    match r.range with
    | none => do
      if maxBytes < file.size then throw .tooLarge
      let data := file.data.take (maxBytes + 1)
      if maxBytes < data.length then throw .tooLarge
      if 0 ∈ data then throw .binary
      return (decodeReplace data, data.length)
    | some (start, stop) => do
      let s : LineReader := ⟨file.data, [], 0, false⟩
      let s ← if 0 < stop then readRange start stop maxBytes (file.data.length + 2) s else pure s
      if s.lineno < start then throw .badRange
      if 0 ∈ s.collected then throw .binary
      return (decodeReplace s.collected, s.collected.length)

end AskFable.Pack

import AskFable.Python.Datetime
import AskFable.Python.JsonDumps
import AskFable.Python.Utf8
import AskFable.Trace.Readers
import Mathlib.Data.List.AList
import Mathlib.Data.List.Sort
import Mathlib.Data.Prod.Lex

/-!
# The event log on disk

One JSON document a line in an active file, which is renamed to a stamped segment when it
would grow over its bound. Older versions left numbered generations behind, `.1` the
newest. An append holds the lock from the size check to the last `fsync`, so appends
follow one another; each may end, by an `OSError` or a crash, after any of its effects.
-/
namespace AskFable.Trace
open AskFable.Text AskFable.Python AskFable.Python.JsonText AskFable.Lines

/-- The regular files of the log's directory. -/
abbrev Dir := AList fun _ : Str => Bytes

/-- What a file holds, nothing when it is absent. -/
def content (d : Dir) (name : Str) : Bytes := (d.lookup name).getD []

@[simp] theorem content_insert (d : Dir) (a b : Str) (bytes : Bytes) :
    content (d.insert a bytes) b = if b = a then bytes else content d b := by
  by_cases h : b = a
  · subst h
    simp [content]
  · simp [content, h, AList.lookup_insert_ne]

@[simp] theorem content_erase (d : Dir) (a b : Str) :
    content (d.erase a) b = if b = a then [] else content d b := by
  by_cases h : b = a
  · subst h
    simp [content]
  · simp [content, h, AList.lookup_erase_ne]

theorem content_of_notMem {d : Dir} {a : Str} (h : a ∉ d) : content d a = [] := by
  rw [content, AList.lookup_eq_none.mpr h, Option.getD_none]

/-- A path by `path.stem` and `path.suffix`; the directory is left out. Neither has a
character that `glob` treats as a pattern. -/
structure LogPath where
  stem : Str
  suffix : Str

namespace LogPath

/-- `path.name`. -/
def name (p : LogPath) : Str := p.stem ++ p.suffix

def lock (p : LogPath) : Str := p.name ++ txt ".lock"

/-- Whether `glob(f"{pre}*{post}")` yields a name. -/
def globs (pre post name : Str) : Bool :=
  pre.isPrefixOf name && post.isSuffixOf (name.drop pre.length)

/-- `glob(f"{stem}.*{suffix}")`. -/
def stamped (p : LogPath) (name : Str) : Bool := globs (p.stem ++ txt ".") p.suffix name

/-- `glob(f"{name}.*")` without the stamped ones. -/
def legacy (p : LogPath) (name : Str) : Bool :=
  globs (p.name ++ txt ".") [] name && !p.stamped name

def segment (p : LogPath) (stamp : Datetime) (sequence : ℕ) : Str :=
  p.stem ++ txt "." ++ stamp.stamp ++ txt "." ++ pad 6 sequence ++ p.suffix

def MAXSIZE : ℕ := 2 ^ 63 - 1

/-- `_generation`. -/
def generation (p : LogPath) (name : Str) : ℕ × Str :=
  let tail := name.drop (p.name.length + 1)
  if tail ≠ [] ∧ tail.all isDigit = true then (natOfDigits tail, []) else (MAXSIZE, tail)

/-- The files of `iter_records()` in the order they are read. -/
def forwardOrder (p : LogPath) (names : List Str) : List Str :=
  (names.filter fun n => p.stamped n || p.legacy n).insertionSort (· ≤ ·) ++
    names.filter (· == p.name)

/-- Sorted by `_generation`. -/
def older (p : LogPath) (a b : Str) : Prop := toLex (p.generation a) ≤ toLex (p.generation b)

instance (p : LogPath) : DecidableRel p.older := fun _ _ => inferInstanceAs (Decidable (_ ≤ _))

instance (p : LogPath) : IsTrans Str p.older := ⟨fun _ _ _ => le_trans⟩

instance (p : LogPath) : Std.Total p.older := ⟨fun _ _ => le_total _ _⟩

/-- The files of `iter_records(newest_first=True)`. -/
def newestOrder (p : LogPath) (names : List Str) : List Str :=
  names.filter (· == p.name) ++ ((names.filter p.stamped).insertionSort (· ≤ ·)).reverse ++
    (names.filter p.legacy).insertionSort p.older

/-- The files `iter_records` looks at. -/
def readable (p : LogPath) (name : Str) : Bool := p.stamped name || p.legacy name || name == p.name

theorem globs_append (pre mid post : Str) : globs pre post (pre ++ mid ++ post) = true := by
  rw [globs, List.append_assoc, List.drop_left, Bool.and_eq_true, List.isPrefixOf_iff_prefix,
    List.isSuffixOf_iff_suffix]
  exact ⟨List.prefix_append _ _, List.suffix_append _ _⟩

theorem length_le_of_globs {pre post name : Str} (h : globs pre post name = true) :
    pre.length + post.length ≤ name.length := by
  rw [globs, Bool.and_eq_true, List.isPrefixOf_iff_prefix, List.isSuffixOf_iff_suffix] at h
  have hpre := h.1.length_le
  have hpost := h.2.length_le
  rw [List.length_drop] at hpost
  omega

theorem stamped_segment (p : LogPath) (t : Datetime) (k : ℕ) : p.stamped (p.segment t k) = true := by
  have h := globs_append (p.stem ++ txt ".") (t.stamp ++ txt "." ++ pad 6 k) p.suffix
  simpa [stamped, segment, List.append_assoc] using h

theorem stamped_name (p : LogPath) : p.stamped p.name = false := by
  by_contra h
  rw [Bool.not_eq_false, stamped] at h
  have hlen := length_le_of_globs h
  simp [name, txt] at hlen

theorem legacy_name (p : LogPath) : p.legacy p.name = false := by
  by_contra h
  simp only [legacy, Bool.and_eq_true, Bool.not_eq_false] at h
  have hlen := length_le_of_globs h.1
  simp [txt] at hlen

theorem segment_ne_name (p : LogPath) (t : Datetime) (k : ℕ) : p.segment t k ≠ p.name := by
  intro h
  have hs := stamped_segment p t k
  rw [h, stamped_name] at hs
  simp at hs

theorem segment_injective (p : LogPath) (t : Datetime) : Function.Injective (p.segment t) := by
  intro i j h
  unfold segment at h
  exact pad_injective 6 (List.append_cancel_left (List.append_cancel_right h))

/-- Segments order by their stamps, then by their numbers. -/
theorem segment_lt (p : LogPath) {s t : Datetime} {i j : ℕ} (hi : i < 10 ^ 6) (hj : j < 10 ^ 6)
    (h : s < t ∨ s = t ∧ i < j) : p.segment s i < p.segment t j := by
  have hpad : pad 6 i ++ p.suffix < pad 6 j ++ p.suffix ↔ i < j := by
    have hlen : (pad 6 i).length = (pad 6 j).length := by
      rw [length_pad (by omega) hi, length_pad (by omega) hj]
    rw [FixedWidth.append_lt_append_iff hlen, pad_lt_iff (by omega) hi hj]
    simp
  have hstamp : s.stamp ++ (txt "." ++ (pad 6 i ++ p.suffix)) <
      t.stamp ++ (txt "." ++ (pad 6 j ++ p.suffix)) := by
    rw [Datetime.stamp_append_lt]
    refine h.imp_right fun h => ⟨h.1, ?_⟩
    exact List.append_left_lt (hpad.mpr h.2)
  unfold segment
  simp only [List.append_assoc]
  exact List.append_left_lt (List.append_left_lt hstamp)

/-- What is read: the stamped, the legacy and the active files. -/
theorem forwardOrder_perm (p : LogPath) (names : List Str) :
    (p.forwardOrder names).Perm (names.filter p.readable) := by
  have hsorted := List.perm_insertionSort (· ≤ ·) (names.filter fun n => p.stamped n || p.legacy n)
  refine (hsorted.append_right _).trans ?_
  have hsplit := List.filter_append_perm (fun n => p.stamped n || p.legacy n) (names.filter p.readable)
  have hrotated : (names.filter p.readable).filter (fun n => p.stamped n || p.legacy n) =
      names.filter fun n => p.stamped n || p.legacy n := by
    rw [List.filter_filter]
    refine List.filter_congr fun n _ => ?_
    unfold readable
    cases p.stamped n <;> cases p.legacy n <;> rfl
  have hactive : (names.filter p.readable).filter (fun n => !(p.stamped n || p.legacy n)) =
      names.filter (· == p.name) := by
    rw [List.filter_filter]
    refine List.filter_congr fun n _ => ?_
    by_cases hn : n = p.name
    · simp [hn, readable, stamped_name, legacy_name]
    · unfold readable
      cases p.stamped n <;> cases p.legacy n <;> simp [hn]
  rwa [hrotated, hactive] at hsplit

end LogPath

/-- `decisions.jsonl`. -/
def decisions : LogPath := ⟨txt "decisions", txt ".jsonl"⟩

/-! ### Reading -/

structure StoredRecord where
  schemaVersion : Json
  payload : Dict

/-- What becomes of a line: `raised` is an exception that leaves the generator. -/
inductive Reading
  | record (r : StoredRecord)
  | unsupported
  | truncated
  | passed
  | raised

/-- `version in (1, 2)`. -/
def supported : Json → Bool
  | .bool b => b
  | .int n => n == 1 || n == 2
  | .float shown => shown == txt "1.0" || shown == txt "2.0"
  | _ => false

/-- `value.get("schema_version", 1)`. -/
def versionOf (payload : Dict) : Json := (Dict.get payload (txt "schema_version")).getD (.int 1)

/-- The record of a line that cannot be decoded. -/
def undecoded (raw : Bytes) : Reading := if endsLine raw then .passed else .truncated

section
variable [Host]

/-- The body of the loop in `_read_path`. -/
def readLine (raw : Bytes) : Reading :=
  match Utf8.decode raw with
  | none => undecoded raw
  | some line =>
    match loads line with
    | .error .value => undecoded raw
    | .error _ => .raised
    | .ok (.obj payload) =>
      if supported (versionOf payload) then .record ⟨versionOf payload, payload⟩ else .unsupported
    | .ok _ => .passed

end

namespace Reading

def record? : Reading → Option StoredRecord
  | record r => some r
  | _ => none

def isRaised : Reading → Bool
  | raised => true
  | _ => false

def isUnsupported : Reading → Bool
  | unsupported => true
  | _ => false

def isTruncated : Reading → Bool
  | truncated => true
  | _ => false

end Reading

/-- `list(store.iter_records(…))` and the two counters after it. -/
structure Scan where
  records : List StoredRecord
  unsupportedVersions : ℕ
  truncatedLines : ℕ

/-- The readings of all lines as a result, none when one raises. -/
def Scan.of (readings : List Reading) : Option Scan :=
  if readings.any Reading.isRaised then none
  else some ⟨readings.filterMap Reading.record?, readings.countP Reading.isUnsupported,
    readings.countP Reading.isTruncated⟩

/-- `_max_line_bytes` of what `int` makes of the setting, none when it is unset, empty or
no integer. -/
def maxLineBytes (setting : Option ℤ) : ℕ := (max 1024 (setting.getD 1048576)).toNat

def BACKWARD_BLOCK : ℕ := 65536

section
variable [Host]

/-- `iter_records()`. -/
def iterRecords (p : LogPath) (limit : ℕ) (d : Dir) : Option Scan :=
  Scan.of ((p.forwardOrder d.keys).flatMap fun n =>
    (linesForward limit (content d n)).map readLine)

/-- `iter_records(newest_first=True)`. -/
def iterNewest (p : LogPath) (limit : ℕ) (d : Dir) : Option Scan :=
  Scan.of ((p.newestOrder d.keys).flatMap fun n =>
    (linesBackwards BACKWARD_BLOCK limit (content d n)).map readLine)

end

/-! ### Writing -/

structure EventStore where
  path : LogPath
  maxBytes : ℤ
  retainSegments : Option ℕ

namespace EventStore

/-- `segments[:-k]`. -/
def excess (k : ℕ) (segments : List Str) : List Str :=
  if k = 0 then [] else segments.take (segments.length - k)

/-- `_trim_segments`. -/
def trimSegments (s : EventStore) (d : Dir) : Dir :=
  match s.retainSegments with
  | none => d
  | some k =>
    (excess k ((d.keys.filter s.path.stamped).insertionSort (· ≤ ·))).foldl (fun d n => d.erase n) d

/-- The first sequence number whose segment does not exist; one of the first
`names.length + 1` is free. -/
def freeSequence (p : LogPath) (names : List Str) (now : Datetime) : ℕ :=
  ((List.range (names.length + 1)).find? fun i => p.segment now i ∉ names).getD 0

/-- `_rotate_if_needed`. -/
def rotateIfNeeded (s : EventStore) (d : Dir) (incoming : ℕ) (now : Datetime) : Dir :=
  match d.lookup s.path.name with
  | none => d
  | some bytes =>
    if s.maxBytes ≤ 0 ∨ (bytes.length + incoming : ℤ) ≤ s.maxBytes then d
    else if s.retainSegments = some 0 then d.erase s.path.name
    else
      s.trimSegments ((d.erase s.path.name).insert
        (s.path.segment now (freeSequence s.path d.keys now)) bytes)

end EventStore

/-- How far an append comes: it fails before the lock file is there, with the lock but
before the rotation, after the rotation, or after some bytes reached the file; or it
returns `True`. -/
inductive Ending
  | unopened
  | locked
  | rotated
  | written (n : ℕ)
  | done
  deriving DecidableEq

section
variable [Host]

/-- A dict of JSON values. -/
structure Event where
  payload : Dict
  held : Held (.obj payload)

/-- The line of an event; none when `json.dumps` raises, which it does beyond the nesting
the reader takes too. -/
def lineOf (payload : Dict) : Option Str :=
  if depth (.obj payload) ≤ Host.nestLimit then (dumps (.obj payload)).map (· ++ txt "\n") else none

/-- `os.open(path, O_CREAT)`. -/
def touch (d : Dir) (name : Str) : Dir := if name ∈ d then d else d.insert name []

/-- `append`: the directory after it, and whether it returns `True`. -/
def append (s : EventStore) (d : Dir) (event : Event) (now : Datetime) (ending : Ending) :
    Dir × Bool :=
  match lineOf event.payload with
  | none => (d, false)
  | some line =>
    if ending = .unopened then (d, false)
    else
      let d := touch d s.path.lock
      match Utf8.encode line with
      | none => (d, false)
      | some bytes =>
        if ending = .locked then (d, false)
        else
          let d := s.rotateIfNeeded d bytes.length now
          let held := content d s.path.name
          match ending with
          | .written n => (d.insert s.path.name (held ++ bytes.take n), false)
          | .done => (d.insert s.path.name (held ++ bytes), true)
          | _ => (d, false)

end

/-! ### What a step can do -/

/-- The search for a free segment finds the first one. -/
theorem freeSequence_spec (p : LogPath) (names : List Str) (now : Datetime) :
    p.segment now (EventStore.freeSequence p names now) ∉ names ∧
      ∀ j < EventStore.freeSequence p names now, p.segment now j ∈ names := by
  unfold EventStore.freeSequence
  cases hfind : (List.range (names.length + 1)).find? fun i => p.segment now i ∉ names with
  | none =>
    -- all of the first `names.length + 1` segments would be among the names
    have hsub : (List.range (names.length + 1)).map (p.segment now) ⊆ names := by
      intro n hn
      obtain ⟨i, hi, rfl⟩ := List.mem_map.mp hn
      simpa using List.find?_eq_none.mp hfind i hi
    have hnodup : ((List.range (names.length + 1)).map (p.segment now)).Nodup :=
      List.nodup_range.map (p.segment_injective now)
    have hlen := (List.subperm_of_subset hnodup hsub).length_le
    simp at hlen
  | some i =>
    obtain ⟨hfree, -, hmin⟩ := List.find?_range_eq_some.mp hfind
    refine ⟨by simpa using hfree, fun j hj => ?_⟩
    simpa using hmin j hj

/-- With unlimited retention a rotation renames the active file to a free segment. -/
inductive Rotated (s : EventStore) (d : Dir) (now : Datetime) : Dir → Prop
  | kept : Rotated s d now d
  | renamed {k : ℕ} (exists_ : s.path.name ∈ d) (free : s.path.segment now k ∉ d)
      (taken : ∀ j < k, s.path.segment now j ∈ d) :
      Rotated s d now ((d.erase s.path.name).insert (s.path.segment now k) (content d s.path.name))

theorem rotateIfNeeded_spec (s : EventStore) (h : s.retainSegments = none) (d : Dir) (incoming : ℕ)
    (now : Datetime) : Rotated s d now (s.rotateIfNeeded d incoming now) := by
  unfold EventStore.rotateIfNeeded
  cases hlook : d.lookup s.path.name with
  | none => exact .kept
  | some bytes =>
    have hbytes : content d s.path.name = bytes := by rw [content, hlook, Option.getD_some]
    have hmem : s.path.name ∈ d := by
      rw [← AList.lookup_isSome, hlook]
      rfl
    obtain ⟨hfree, htaken⟩ := freeSequence_spec s.path d.keys now
    simp only [h, reduceCtorEq, if_false, EventStore.trimSegments]
    split_ifs
    · exact .kept
    · rw [← hbytes]
      exact .renamed hmem hfree htaken

section
variable [Host]

/-- The directory an append finds when it opens the active file. -/
def opened (s : EventStore) (d : Dir) (bytes : Bytes) (now : Datetime) : Dir :=
  s.rotateIfNeeded (touch d s.path.lock) bytes.length now

omit [Host] in
theorem opened_spec (s : EventStore) (h : s.retainSegments = none) (d : Dir) (bytes : Bytes)
    (now : Datetime) : Rotated s (touch d s.path.lock) now (opened s d bytes now) :=
  rotateIfNeeded_spec s h _ bytes.length now

/-- What an append can do to the directory, by how far it came. -/
inductive Appended (s : EventStore) (d : Dir) (event : Event) (now : Datetime) (ending : Ending) :
    Dir × Bool → Prop
  | refused : Appended s d event now ending (d, false)
  | locked : Appended s d event now ending (touch d s.path.lock, false)
  | rotated {line : Str} {bytes : Bytes} (line_ : lineOf event.payload = some line)
      (bytes_ : Utf8.encode line = some bytes) :
      Appended s d event now ending (opened s d bytes now, false)
  | torn {line : Str} {bytes : Bytes} {n : ℕ} (line_ : lineOf event.payload = some line)
      (bytes_ : Utf8.encode line = some bytes) (ending_ : ending = .written n) :
      Appended s d event now ending ((opened s d bytes now).insert s.path.name
        (content (opened s d bytes now) s.path.name ++ bytes.take n), false)
  | confirmed {line : Str} {bytes : Bytes} (line_ : lineOf event.payload = some line)
      (bytes_ : Utf8.encode line = some bytes) (ending_ : ending = .done) :
      Appended s d event now ending ((opened s d bytes now).insert s.path.name
        (content (opened s d bytes now) s.path.name ++ bytes), true)

theorem append_spec (s : EventStore) (d : Dir) (event : Event) (now : Datetime) (ending : Ending) :
    Appended s d event now ending (append s d event now ending) := by
  unfold append
  cases hline : lineOf event.payload with
  | none => exact .refused
  | some line =>
    dsimp only
    cases hbytes : Utf8.encode line with
    | none =>
      dsimp only
      split_ifs
      · exact .refused
      · exact .locked
    | some bytes =>
      cases ending with
      | unopened => exact .refused
      | locked => exact .locked
      | rotated => exact .rotated hline hbytes
      | written n => exact .torn hline hbytes rfl
      | done => exact .confirmed hline hbytes rfl

end

end AskFable.Trace

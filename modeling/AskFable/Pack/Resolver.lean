import AskFable.Pack.SafeFs
import Mathlib.Data.List.Sort

/-!
# Packing specs into a bundle

`pack` resolves the specs, drops exact duplicates and holds back ranges of a file that is
there as a whole, admits blocks while they fit, and puts the admitted blocks into input order.
-/
namespace AskFable.Pack
open AskFable.Text AskFable.Python

def DEFAULT_MAX_CHARS : ℤ := 24000
def DEFAULT_MAX_FILES : ℤ := 32
def DEFAULT_MAX_FILE_BYTES : ℤ := 1000000

/-- `_int_env`: what does not parse and what is not positive is the default. -/
def intEnv [Host] (environ : Str → Option Str) (name : Str) (default : ℤ) : ℤ :=
  match environ name with
  | none => default
  | some [] => default
  | some text =>
    match Host.intText text with
    | some v => if 0 < v then v else default
    | none => default

def maxCharsDefault [Host] (environ : Str → Option Str) : ℤ :=
  intEnv environ (txt "ASK_FABLE_PACK_MAX_CHARS") DEFAULT_MAX_CHARS

def maxFilesDefault [Host] (environ : Str → Option Str) : ℤ :=
  intEnv environ (txt "ASK_FABLE_PACK_MAX_FILES") DEFAULT_MAX_FILES

/-- `safe_fs.max_file_bytes`, written as `_int_env` is. -/
def maxFileBytes [Host] (environ : Str → Option Str) : ℕ :=
  (intEnv environ (txt "ASK_FABLE_PACK_MAX_FILE_BYTES") DEFAULT_MAX_FILE_BYTES).toNat

/-- The seam for a scrubber of secrets. -/
def scrub (text : Str) : Str := text

/-- The seam for a signal of quality. -/
def quality (_bundle : Str) : Dict := []

/-- A resolved spec with its place in the input. -/
structure Item where
  idx : ℕ
  resolved : Resolved
  spec : Str
  deriving DecidableEq

structure Included where
  spec : Str
  path : Str
  chars : ℕ
  deriving DecidableEq

structure Skip where
  spec : Str
  reason : Reason
  deriving DecidableEq

structure PackResult where
  bundle : Str
  included : List Included
  skipped : List Skip
  complete : Bool
  chars : ℕ
  quality : Dict

def label (r : Resolved) : Str :=
  match r.range with
  | some (start, stop) => r.relPath ++ txt ":" ++ natStr start ++ txt "-" ++ natStr stop
  | none => r.relPath

/-! ### Duplicates and held ranges -/

/-- The kept items, and the ranges held back, by file. -/
structure Deduped where
  seen : List (Str × Option (ℕ × ℕ))
  out : List Item
  held : Str → List Item

def Resolved.sig (r : Resolved) : Str × Option (ℕ × ℕ) := (r.absPath, r.range)

/-- One round of the loop in `_dedupe`. -/
def keepOrHold (whole : List Str) (d : Deduped) (it : Item) : Deduped :=
  let r := it.resolved
  if r.sig ∈ d.seen then d
  else if r.range.isSome ∧ r.absPath ∈ whole then
    ⟨r.sig :: d.seen, d.out, fun p => if p = r.absPath then d.held p ++ [it] else d.held p⟩
  else ⟨r.sig :: d.seen, d.out ++ [it], d.held⟩

/-- The files that are asked for as a whole. -/
def wholes (items : List Item) : List Str :=
  (items.filter fun it => it.resolved.range.isNone).map fun it => it.resolved.absPath

/-- `_dedupe`; `held` is read through `get(path, [])` only. -/
def dedupe (items : List Item) : Deduped :=
  items.foldl (keepOrHold (wholes items)) ⟨[], [], fun _ => []⟩

/-- Ranges before whole files, then the input order. -/
def Item.rank (it : Item) : ℕ := if it.resolved.range.isSome then 0 else 1

def Item.before (a b : Item) : Prop := a.rank < b.rank ∨ (a.rank = b.rank ∧ a.idx ≤ b.idx)

instance : DecidableRel Item.before := fun _ _ => inferInstanceAs (Decidable (_ ∨ _))

/-- The order of admission. -/
def order (items : List Item) : List Item := (dedupe items).out.insertionSort Item.before

/-! ### Admission -/

/-- The budget, and what reading a resolved spec gives. -/
structure Limits where
  maxChars : ℤ
  maxFiles : ℤ
  read : Resolved → Except Reason (Str × ℕ)

structure Admitted where
  idx : ℕ
  block : Str
  info : Included
  deriving DecidableEq

structure Packing where
  admitted : List Admitted
  total : ℕ
  stopped : Bool
  skipped : List Skip

def blockOf (r : Resolved) (content : Str) : Str :=
  txt "=== " ++ label r ++ txt " ===\n" ++ scrub content

/-- `admit`: the reason why a block cannot go in, if there is one. -/
def admitBlock (lim : Limits) (s : Packing) (it : Item) : Packing × Option Reason :=
  if s.stopped then (s, some .budgetExhausted)
  else if lim.maxFiles ≤ s.admitted.length then (s, some .maxFiles)
  else
    match lim.read it.resolved with
    | .error reason => (s, some reason)
    | .ok (content, _) =>
      let block := blockOf it.resolved content
      if lim.maxChars < s.total + block.length then (s, some .budgetExhausted)
      else
        (⟨s.admitted ++ [⟨it.idx, block, ⟨it.spec, it.resolved.relPath, block.length⟩⟩],
          s.total + block.length, s.stopped, s.skipped⟩, none)

/-- A range tried in the place of its file. -/
def tryHeld (lim : Limits) (s : Packing) (it : Item) : Packing :=
  match admitBlock lim s it with
  | (s, none) => s
  | (s, some reason) =>
    ⟨s.admitted, s.total, s.stopped || reason == .budgetExhausted,
      s.skipped ++ [⟨it.spec, reason⟩]⟩

/-- One round of the admission loop: a file that is refused hands over to the ranges held back
for it, and the stop comes after them. -/
def consider (lim : Limits) (held : Str → List Item) (s : Packing) (it : Item) : Packing :=
  match admitBlock lim s it with
  | (s, none) => s
  | (s, some reason) =>
    let s := (held it.resolved.absPath).foldl (tryHeld lim)
      ⟨s.admitted, s.total, s.stopped, s.skipped ++ [⟨it.spec, reason⟩]⟩
    ⟨s.admitted, s.total, s.stopped || reason == .budgetExhausted, s.skipped⟩

/-- The bundle and the account of it. -/
def finish (s : Packing) : PackResult :=
  let admitted := s.admitted.insertionSort fun a b => a.idx ≤ b.idx
  let bundle := joined (txt "\n\n") (admitted.map Admitted.block)
  ⟨bundle, admitted.map Admitted.info, s.skipped, s.skipped.isEmpty, bundle.length,
    quality bundle⟩

/-- `pack` after the specs are resolved. -/
def packResolved (lim : Limits) (skipped : List Skip) (items : List Item) : PackResult :=
  finish ((order items).foldl (consider lim (dedupe items).held) ⟨[], 0, false, skipped⟩)

/-- The loop that resolves the specs; `none` is an exception. -/
def resolveAll (resolve : Str → Option (Except Reason Resolved)) :
    ℕ → List Str → Option (List Skip × List Item)
  | _, [] => some ([], [])
  | idx, raw :: rest =>
    let spec := strip raw
    (resolve spec).bind fun r => (resolveAll resolve (idx + 1) rest).map fun (skipped, items) =>
      match r with
      | .error reason => (⟨spec, reason⟩ :: skipped, items)
      | .ok r => (skipped, ⟨idx, r, spec⟩ :: items)

/-- The arguments and the surroundings of one call of `pack`. -/
structure Call where
  specs : List Str
  root : Str
  maxChars : Option ℤ
  maxFiles : Option ℤ
  extraBlocklist : List Str
  environ : Str → Option Str
  fs : Fs

section
variable [Host] [Unicode]

def Call.limits (c : Call) : Limits :=
  ⟨c.maxChars.getD (maxCharsDefault c.environ), c.maxFiles.getD (maxFilesDefault c.environ),
    fun r => readContent c.fs r (maxFileBytes c.environ)⟩

def Call.resolve (c : Call) (spec : Str) : Option (Except Reason Resolved) :=
  resolveWithin c.fs c.root spec c.extraBlocklist

/-- `pack`; `none` is an exception that got out. -/
def pack (c : Call) : Option PackResult :=
  (resolveAll c.resolve 0 c.specs).map fun (skipped, items) => packResolved c.limits skipped items

end

end AskFable.Pack

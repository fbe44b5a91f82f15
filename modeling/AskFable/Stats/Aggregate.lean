import AskFable.General.Tabulate
import AskFable.Python.Json
import Mathlib.Algebra.BigOperators.Pi
import Mathlib.Algebra.Group.Prod
import Mathlib.Algebra.GroupWithZero.Nat
import Mathlib.Algebra.Order.Group.Multiset
import Mathlib.Algebra.Order.Ring.Rat
import Mathlib.Data.List.Sort
import Mathlib.Data.Prod.Lex

/-!
# Usage statistics

The log is read twice: once for the time of the first event of the second schema, once to bring
every record into one form, to filter it, and to add it to the bucket of its key and to the
totals. An exception on the way leaves no statistics.
-/
namespace AskFable.Stats
open AskFable.Text AskFable.Python AskFable.Tabulate

/-- What the float type makes of numbers. A cost is added up in `V`; `none` is an
`OverflowError`. -/
class Numbers (V : Type*) where
  /-- `datetime.fromisoformat(raw).timestamp()`, none when it raises. -/
  parseTs : Str → Option ℚ
  sub : ℚ → ℚ → ℚ
  mul : ℚ → ℚ → ℚ
  div : ℤ → ℕ → Option ℚ
  round : ℚ → ℕ → ℚ
  ofInt : ℤ → Option V
  ofFloat : Str → V
  /-- `round(x, 6)`. -/
  round6 : V → V

/-! ### What is asked -/

inductive By
  | model
  | session
  | day
  | tool
  | provider
  | project
  | cache
  | mode
  deriving DecidableEq

namespace By

def name : By → Str
  | model => txt "model"
  | session => txt "session"
  | day => txt "day"
  | tool => txt "tool"
  | provider => txt "provider"
  | project => txt "project"
  | cache => txt "cache"
  | mode => txt "mode"

/-- `BY`. -/
def all : List By := [model, session, day, tool, provider, project, cache, mode]

/-- `by if by in BY else "model"`. -/
def ofText (text : Str) : By := (all.find? fun b => b.name == text).getD model

end By

inductive Window
  | hour
  | day
  | week
  | all
  deriving DecidableEq

namespace Window

def name : Window → Str
  | hour => txt "1h"
  | day => txt "24h"
  | week => txt "7d"
  | all => txt "all"

/-- `_WINDOW_S`. -/
def seconds : Window → Option ℚ
  | hour => some 3600
  | day => some 86400
  | week => some 604800
  | all => none

/-- `window if window in WINDOWS else "24h"`. -/
def ofText (text : Str) : Window := ([hour, day, week, all].find? fun w => w.name == text).getD day

end Window

/-- The arguments of a call, and what the clock reads in it. -/
structure Query where
  windowArg : Str
  byArg : Str
  modelFilter : Option Str
  sessionFilter : Option Str
  now : ℚ

def Query.window (q : Query) : Window := .ofText q.windowArg

def Query.view (q : Query) : By := .ofText q.byArg

section
variable (V : Type*) [Numbers V] [Host]

/-- `_parse_ts(str(rec.get(field) or ""))`. -/
def timeOf (record : Dict) (field : String) : Option ℚ :=
  Numbers.parseTs V (record.text (txt field))

/-- `datetime.now(UTC).timestamp() - _WINDOW_S[window]`. -/
def Query.cutoff (q : Query) : Option ℚ := q.window.seconds.map fun s => Numbers.sub V q.now s

end

/-! ### The form of a record -/

/-- `rec.get("schema_version") == 2`. -/
def isV2 (record : Dict) : Bool :=
  match record.get (txt "schema_version") with
  | some (.int n) => n == 2
  | some (.float shown) => shown == txt "2.0"
  | _ => false

/-- `rec.get(k)`, when it is a dict. -/
def dictAt (record : Dict) (k : String) : Option Dict := (record.get (txt k)).bind Json.asDict

/-- `rec.get(k)`, where a missing key is `None`. -/
def valueAt (record : Dict) (k : String) : Json := (record.get (txt k)).getD .null

def isStr : Json → Bool
  | .str _ => true
  | _ => false

def isBool : Json → Bool
  | .bool _ => true
  | _ => false

/-- Copy a field out of `orchestration` if it has the type. -/
def copyFrom (orchestration : Dict) (p : Json → Bool) (record : Dict) (k : String) : Dict :=
  match orchestration.get (txt k) with
  | some v => if p v = true then record.set (txt k) v else record
  | none => record

/-- The form of the first schema for a record of the second. -/
def rewrite (queuedSkip : Bool) (record : Dict) : Dict :=
  let marked := if queuedSkip = true then record.set (txt "_queued_skip") (.bool true) else record
  let timed := marked.set (txt "ts") (valueAt marked "timestamp")
  let decided := timed.set (txt "decision")
    (if timed.getIs (txt "status") (txt "ok") = true then .str (txt "allowed")
     else valueAt timed "status")
  let reset := decided.set (txt "mode") .null
  match dictAt reset "orchestration" with
  | none => reset
  | some o => copyFrom o isBool
      (["model", "mode", "quorum", "consensus"].foldl (copyFrom o isStr) reset) "synth_fallback"

/-- A record of the second schema, if the view is about its event. A provider that a cache
stood in for is passed over, and one that was never started is marked. -/
def prepare (by' : By) (record : Dict) : Option Dict :=
  let expected := if by' = .provider then txt "provider.completed" else txt "tool.completed"
  if record.getIs (txt "event_name") expected = false then none
  else
    match if by' = .provider then dictAt record "provider" else none with
    | none => some (rewrite false record)
    | some provider =>
      if provider.getIs (txt "transport") (txt "cache") = true then none
      else some (rewrite (provider.getIs (txt "transport") (txt "skipped")) record)

section
variable (V : Type*) [Numbers V] [Host]

/-- The first pass: the least time of a `tool.completed` event. -/
def v2Start (records : List Dict) : Option ℚ :=
  records.foldl (fun start record =>
    if isV2 record && record.getIs (txt "event_name") (txt "tool.completed") then
      match timeOf V record "timestamp" with
      | none => start
      | some ts => some (start.elim ts fun s => if ts < s then ts else s)
    else start) none

/-- A record of the first schema counts until the second begins. -/
def legacy (start : Option ℚ) (record : Dict) : Option Dict :=
  match start, timeOf V record "ts" with
  | some s, some ts => if s ≤ ts then none else some record
  | _, _ => some record

/-- The record is not older than the window. -/
def recent (cutoff : Option ℚ) (record : Dict) : Bool :=
  match cutoff with
  | none => true
  | some c => (timeOf V record "ts").elim false fun ts => c ≤ ts

/-- A filter that is not given, or empty, lets everything through. -/
def passes (wanted : Option Str) (record : Dict) (k : String) : Bool :=
  match wanted with
  | none => true
  | some w => w.isEmpty || record.text (txt k) == w

/-- The second pass up to the key: what is left of a record, none when it is passed over. -/
def route (q : Query) (start : Option ℚ) (record : Dict) : Option Dict :=
  if q.view = .provider ∧ isV2 record = false then none
  else
    (if isV2 record = true then prepare q.view record else legacy V start record).filter fun r =>
      recent V (q.cutoff V) r && passes q.modelFilter r "model" &&
        passes q.sessionFilter r "session"

end

section
variable [Host]

/-- `str(rec.get(k) or "?")`. -/
def shownAt (record : Dict) (k : String) : Str :=
  (record.getOr (txt k) (.str (txt "?"))).pyStr

/-- `_bucket_key`. -/
def bucketKey (record : Dict) : By → Str
  | .mode => shownAt record "mode"
  | .tool => shownAt record "tool"
  | .project => shownAt record "project"
  | .provider =>
    match dictAt record "provider" with
    | some p => (p.getOr (txt "actual_model") (p.getOr (txt "requested_model")
        (.str (txt "?")))).pyStr
    | none => txt "?"
  | .cache =>
    match dictAt record "cache" with
    | some c => shownAt c "status"
    | none => txt "?"
  | .session => shownAt record "session"
  | .day => (shownAt record "ts").take 10
  | .model => shownAt record "model"

/-- The bucket of a record; none if the view cannot bucket it. -/
def target (by' : By) (record : Dict) : Option Str :=
  let key := bucketKey record by'
  if (by' = .cache ∧ key ∉ [txt "hit", txt "miss"]) ∨ (by' = .model ∧ key = txt "?") then none
  else some key

end

/-! ### The buckets -/

/-- The integer columns of a bucket that only ever grow by one. -/
inductive Counter
  | calls
  | allowed
  | refused
  | errors
  | circuitOpen
  | cancelled
  | cacheHits
  | cacheMisses
  | costCovered
  | usageCoverage
  | synthFallbackTrue
  deriving DecidableEq

/-- A bucket. The dict of consensus counts is the multiset of what it counted. -/
structure Bucket (V : Type*) where
  counts : Counter → ℕ
  lat : List ℤ
  totalTokens : ℤ
  costUsd : V
  costUsdNotional : V
  consensusCounts : Multiset Str

namespace Bucket
variable {V : Type*}

/-- `_empty_bucket`. -/
def empty [Zero V] : Bucket V := ⟨0, [], 0, 0, 0, 0⟩

/-- `b[c] += 1`. -/
def bump (c : Counter) (b : Bucket V) : Bucket V := { b with counts := b.counts + Pi.single c 1 }

/-- `_count_cache`. -/
def countCache (record : Dict) (b : Bucket V) : Bucket V :=
  match dictAt record "cache" with
  | none => b
  | some cache =>
    if cache.getIs (txt "status") (txt "hit") = true then b.bump .cacheHits
    else if cache.getIs (txt "status") (txt "miss") = true then b.bump .cacheMisses
    else b

end Bucket

/-- `isinstance(x, (int, float))`. -/
def isNumber : Json → Bool
  | .bool _ | .int _ | .float _ => true
  | _ => false

/-- `int(x)` of a number, none when it raises. -/
def intAt [Host] (x : Json) : Option ℤ :=
  match x.intOf with
  | .value n => some n
  | .mismatch | .overflow => none

/-- `float(x)` of a number, none when it raises. -/
def floatAt {V : Type*} [Numbers V] : Json → Option V
  | .bool b => Numbers.ofInt (if b then 1 else 0)
  | .int n => Numbers.ofInt n
  | .float shown => some (Numbers.ofFloat shown)
  | _ => none

section
variable [Host]

/-- `str(rec.get("decision") or "")`. -/
def decision (record : Dict) : Str := record.text (txt "decision")

/-- The breaker shed the call. -/
def isShed (record : Dict) : Bool :=
  (dictAt record "error").elim false fun e => e.getIs (txt "kind") (txt "circuit_open")

def isQueued (record : Dict) : Bool := record.truthy (txt "_queued_skip")

/-- The call never completed. -/
def isIncomplete (record : Dict) : Bool := decision record == txt "incomplete"

def isCancelled (record : Dict) : Bool :=
  (dictAt record "error").elim false fun e => e.getIs (txt "kind") (txt "cancelled") ||
    (isIncomplete record && e.getIs (txt "reason") (txt "cancelled"))

namespace Bucket
variable {V : Type*} [AddCommMonoid V] [Numbers V]

/-- The class of a call, by its decision. -/
def classify (record : Dict) (b : Bucket V) : Bucket V :=
  if decision record = txt "allowed" then b.bump .allowed
  else if decision record ∈ [txt "refused", txt "denied"] then b.bump .refused
  else if isCancelled record = true then b.bump .cancelled
  else if decision record = txt "error" ∨ isIncomplete record = true then b.bump .errors
  else b

def addLatency (record : Dict) (b : Bucket V) : Option (Bucket V) :=
  let dur := valueAt record "duration_ms"
  if isNumber dur = true then (intAt dur).map fun ms => { b with lat := b.lat ++ [ms] } else some b

def addTokens (usage : Dict) (b : Bucket V) : Option (Bucket V) :=
  let tokens := valueAt usage "total_tokens"
  if isNumber tokens = true then
    (intAt tokens).map fun n => { b with totalTokens := b.totalTokens + n }
  else some b

/-- What was spent, or what a subscription would have cost. -/
def addCost (usage : Dict) (b : Bucket V) : Option (Bucket V) :=
  let cost := valueAt usage "cost_usd"
  if isNumber cost = true then
    (floatAt cost).map fun x =>
      if usage.getIs (txt "cost_basis") (txt "subscription") = true then
        { b with costUsdNotional := b.costUsdNotional + x }
      else { b with costUsd := b.costUsd + x }
  else some b

def addNotional (usage : Dict) (b : Bucket V) : Option (Bucket V) :=
  let notional := valueAt usage "cost_usd_notional"
  if isNumber notional = true then
    (floatAt notional).map fun x => { b with costUsdNotional := b.costUsdNotional + x }
  else some b

def cover (usage : Dict) (b : Bucket V) : Bucket V :=
  if isNumber (valueAt usage "cost_usd") = true ∨
      isNumber (valueAt usage "cost_usd_notional") = true then
    b.bump .costCovered
  else b

def addUsage (record : Dict) (b : Bucket V) : Option (Bucket V) :=
  match dictAt record "usage" with
  | none => some b
  | some usage =>
    (((b.bump .usageCoverage).addTokens usage).bind fun b =>
      (b.addCost usage).bind (addNotional usage)).map (cover usage)

def addConsensus (record : Dict) (b : Bucket V) : Bucket V :=
  match valueAt record "consensus" with
  | .str s => if s = [] then b else { b with consensusCounts := s ::ₘ b.consensusCounts }
  | _ => b

def addFallback (record : Dict) (b : Bucket V) : Bucket V :=
  match valueAt record "synth_fallback" with
  | .bool true => b.bump .synthFallbackTrue
  | _ => b

/-- What the loop over the targets does to one of them. -/
def add (b : Bucket V) (record : Dict) : Option (Bucket V) :=
  if isShed record = true then some ((b.bump .circuitOpen).countCache record)
  else if isQueued record = true then some ((b.bump .cancelled).countCache record)
  else
    ((((b.bump .calls).classify record).addLatency record).map (countCache record)).bind fun b =>
      (b.addUsage record).map fun b => (b.addConsensus record).addFallback record

end Bucket
end

/-! ### What is reported -/

/-- The float 0.95. -/
def NINETY_FIVE : ℚ := 4278419646001971 / 2 ^ 52

/-- A row of the report; the integer columns are the bucket's. -/
structure Row (V : Type*) where
  key : Str
  counts : Counter → ℕ
  avgMs : Option ℤ
  p95Ms : Option ℤ
  errorRate : ℚ
  shedRate : ℚ
  cacheHitRate : ℚ
  totalTokens : ℤ
  costUsd : V
  costUsdNotional : V
  consensusCounts : Multiset Str

structure Report (V : Type*) where
  window : Window
  view : By
  buckets : List (Row V)
  totals : Row V

section
variable {V : Type*} [Numbers V]

variable (V) in
/-- `round(part / whole, 3) if whole else 0.0`. -/
def rate (part whole : ℕ) : Option ℚ :=
  if whole = 0 then some 0
  else (Numbers.div V part whole).map fun q => Numbers.round V q 3

variable (V) in
/-- `int(sum(lat) / len(lat)) if lat else None`; the outer `none` is an exception. -/
def average (lat : List ℤ) : Option (Option ℤ) :=
  if lat = [] then some none
  else (Numbers.div V lat.sum lat.length).map fun q => some (q.num.tdiv q.den)

variable (V) in
/-- `_p95` of an ascending list. -/
def p95 (sorted : List ℤ) : Option ℤ :=
  if sorted = [] then none
  else
    let idx := (Rat.ceil (Numbers.mul V NINETY_FIVE sorted.length) - 1).toNat
    sorted[min idx (sorted.length - 1)]?

/-- `_finalize`. -/
def finalize (key : Str) (b : Bucket V) : Option (Row V) :=
  let lat := b.lat.insertionSort (· ≤ ·)
  let calls := b.counts .calls
  let shed := b.counts .circuitOpen
  let lookups := b.counts .cacheHits + b.counts .cacheMisses
  (average V lat).bind fun avgMs =>
  (rate V (b.counts .errors) calls).bind fun errorRate =>
  (rate V shed (calls + shed)).bind fun shedRate =>
  (rate V (b.counts .cacheHits) lookups).map fun cacheHitRate =>
    { key, counts := b.counts, avgMs, p95Ms := p95 V lat, errorRate, shedRate, cacheHitRate,
      totalTokens := b.totalTokens, costUsd := Numbers.round6 b.costUsd,
      costUsdNotional := Numbers.round6 b.costUsdNotional, consensusCounts := b.consensusCounts }

/-- What the rows are sorted by: days by their name, everything else by its traffic first. -/
def sortKey (by' : By) (row : Row V) : ℤ ×ₗ Str :=
  toLex (if by' = .day then 0 else -((row.counts .calls + row.counts .circuitOpen : ℕ) : ℤ), row.key)

/-- The rows of the buckets and of the totals. -/
def publish (q : Query) (books : Books Str (Bucket V)) : Option (Report V) :=
  (books.accounts.entries.mapM fun p => finalize p.1 p.2).bind fun rows =>
  (finalize (txt "all") books.total).map fun totals =>
    ⟨q.window, q.view, rows.insertionSort (sortKey q.view · ≤ sortKey q.view ·), totals⟩

/-! ### The loop -/

variable [AddCommMonoid V] [Host]

variable (V) in
/-- What the second pass adds up, each record with its bucket. -/
def routed (q : Query) (records : List Dict) : List (Option Str × Dict) :=
  let start := v2Start V records
  records.filterMap fun r => (route V q start r).map fun r => (target q.view r, r)

def accumulate (q : Query) (records : List Dict) : Option (Books Str (Bucket V)) :=
  run Bucket.empty Bucket.add (routed V q records)

def aggregate (q : Query) (records : List Dict) : Option (Report V) :=
  (accumulate q records).bind (publish q)

end

end AskFable.Stats

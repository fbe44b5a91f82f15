import AskFable.General.Grouping
import AskFable.General.Paging
import AskFable.Python.JsonPlain
import AskFable.Trace.Store
import AskFable.Trace.Telemetry

/-!
# Listing traces page by page

The log is read newest first, its events are folded into one summary a trace, and the
summaries are handed out by descending timestamp, the cursor being the timestamp of the last
one on the page. What ties with that one is lost, and the texts of the timestamps order as
the times do only where both or neither have a fraction.
-/
namespace AskFable.Trace
open AskFable.Text AskFable.Python AskFable.Python.JsonText AskFable.Grouping AskFable.Paging

/-- `_max_events()` and `_max_bytes()`. -/
structure Caps where
  maxEvents : ℕ
  maxBytes : ℕ

/-- The settings as `int` reads them, none when unset, empty or no integer. -/
def Caps.of (events bytes : Option ℤ) : Caps :=
  ⟨(max 1 (events.getD 100000)).toNat, (max 1 (bytes.getD 52428800)).toNat⟩

/-- The filters of a listing; an empty one filters nothing. -/
structure Filters where
  tool : Option Str
  status : Option Str
  provider : Option Str
  session : Option Str
  project : Option Str

/-- `not wanted or holds(wanted)`. -/
def admits (wanted : Option Str) (holds : Str → Bool) : Bool :=
  wanted.elim true fun w => w.isEmpty || holds w

structure Summary where
  traceId : Str
  timestamp : Str
  tool : Option Str
  status : Option Str
  durationMs : Option Str
  session : Option Str
  project : Option Str
  providers : List Str
  deriving DecidableEq

def Filters.passes (q : Filters) (s : Summary) : Bool :=
  admits q.status (fun w => s.status == some w) && admits q.provider (fun w => s.providers.contains w) &&
    admits q.session (fun w => s.session == some w) && admits q.project (fun w => s.project == some w)

/-- `event.event_name == "tool.completed"`. -/
def TraceEvent.completes (e : TraceEvent) : Bool := e.eventName == txt "tool.completed"

/-- The model a provider block names. -/
def TraceEvent.model (e : TraceEvent) : Option Str :=
  match e.provider with
  | none | some [] => none
  | some block =>
    match Dict.getOr block (txt "actual_model")
        ((Dict.get block (txt "requested_model")).getD .null) with
    | .str name => some name
    | _ => none

/-- `not tool or event.tool == tool`. -/
def TraceEvent.ofTool (tool : Option Str) (e : TraceEvent) : Bool :=
  admits tool fun w => e.tool == some w

/-- The entry `setdefault` makes. -/
def Summary.fresh (e : TraceEvent) : Summary where
  traceId := e.traceId
  timestamp := e.timestamp
  tool := e.tool
  status := some (txt "incomplete")
  durationMs := none
  session := e.session
  project := e.project
  providers := []

/-- What an event changes in the summary of its trace; `newest` when it is the first
completion seen. -/
def Summary.update (e : TraceEvent) (newest : Bool) (s : Summary) : Summary where
  traceId := s.traceId
  timestamp := if s.timestamp < e.timestamp then e.timestamp else s.timestamp
  tool := e.tool
  status := if newest then e.status else s.status
  durationMs := if newest then e.durationMs else s.durationMs
  session := e.session
  project := e.project
  providers := e.model.elim s.providers (moveFront s.providers)

/-- `summaries` and `completed`. -/
structure Fold where
  summaries : List Summary
  completed : List Str

def Fold.note (f : Fold) (e : TraceEvent) : Fold :=
  let newest := e.completes && !f.completed.contains e.traceId
  { summaries := upsert Summary.traceId e.traceId (.fresh e) (Summary.update e newest) f.summaries
    completed := if newest then e.traceId :: f.completed else f.completed }

/-- `record.schema_version == 2`. -/
def isTwo : Json → Bool
  | .int n => n == 2
  | .float shown => shown == txt "2.0"
  | _ => false

/-- A page and `next_before`. -/
structure Page where
  traces : List Summary
  nextBefore : Option Str

section
variable [Host] [EventHost]

/-- `len(json.dumps(payload, ensure_ascii=False).encode())`, none when it raises. -/
def sizeOf (payload : Dict) : Option ℕ :=
  if depth (.obj payload) ≤ Host.nestLimit then
    ((dumpsPlain (.obj payload)).bind Utf8.encode).map List.length
  else none

/-- `iter_records(newest_first=True)` as a stream. -/
def newestReadings (p : LogPath) (lineLimit : ℕ) (d : Dir) : List Reading :=
  (p.newestOrder d.keys).flatMap fun n =>
    (linesBackwards BACKWARD_BLOCK lineLimit (content d n)).map readLine

/-- The loop of `list_traces` from a record number and a byte count on; none when it
raises. -/
def scan (caps : Caps) (tool : Option Str) : ℕ → ℕ → Fold → List Reading → Option Fold
  | _, _, f, [] => some f
  | _, _, _, .raised :: _ => none
  | index, scanned, f, .record r :: rest =>
    match sizeOf r.payload with
    | none => none
    | some size =>
      if caps.maxBytes < scanned + size then some f
      else if caps.maxEvents ≤ index then some f
      else if isTwo r.schemaVersion then
        match fromDict r.payload with
        | none => none
        | some none => scan caps tool (index + 1) (scanned + size) f rest
        | some (some e) =>
          scan caps tool (index + 1) (scanned + size) (if e.ofTool tool then f.note e else f) rest
      else scan caps tool (index + 1) (scanned + size) f rest
  | index, scanned, f, _ :: rest => scan caps tool index scanned f rest

/-- `values` after the sort. -/
def listed (q : Filters) (f : Fold) : List Summary :=
  (f.summaries.filter q.passes).insertionSort fun a b => b.timestamp ≤ a.timestamp

/-- `max(1, min(limit, 100))`. -/
def bounded (limit : ℤ) : ℕ := (max 1 (min limit 100)).toNat

/-- The cursor and the cut of `list_traces`. -/
def pageOf (q : Filters) (limit : ℤ) (before : Option Str) (f : Fold) : Page :=
  let values := (listed q f).filter fun s => admits before fun b => s.timestamp < b
  { traces := values.take (bounded limit)
    nextBefore :=
      if bounded limit < values.length then values[bounded limit - 1]?.map Summary.timestamp
      else none }

def listTraces (p : LogPath) (lineLimit : ℕ) (caps : Caps) (q : Filters) (limit : ℤ) (d : Dir)
    (before : Option Str) : Option Page :=
  (scan caps q.tool 0 0 ⟨[], []⟩ (newestReadings p lineLimit d)).map (pageOf q limit before)

/-- Every page from a cursor on, none when a listing raises or the fuel does not last. -/
def allPages (list : Option Str → Option Page) : (fuel : ℕ) → Option Str → Option (List Summary)
  | 0, _ => none
  | fuel + 1, before =>
    match list before with
    | none => none
    | some page =>
      match page.nextBefore with
      | none => some page.traces
      | some s => (allPages list fuel (some s)).map (page.traces ++ ·)

end

/-! ### What the log says -/

/-- The latest timestamp as a text. -/
def latest (es : List TraceEvent) : Str := es.foldl (fun m e => max m e.timestamp) []

/-- A trace by its events, newest first. -/
def summarize (es : List TraceEvent) (id : Str) : Summary where
  traceId := id
  timestamp := latest es
  tool := es.getLast?.bind TraceEvent.tool
  status := (es.find? TraceEvent.completes).elim (some (txt "incomplete")) TraceEvent.status
  durationMs := (es.find? TraceEvent.completes).bind TraceEvent.durationMs
  session := es.getLast?.bind TraceEvent.session
  project := es.getLast?.bind TraceEvent.project
  providers := (es.reverse.filterMap TraceEvent.model).eraseDups

def eventsOf (es : List TraceEvent) (id : Str) : List TraceEvent := es.filter fun e => e.traceId = id

/-- The traces of a log, each with all its events. -/
def tracesIn (es : List TraceEvent) : List Summary :=
  (es.map TraceEvent.traceId).eraseDups.map fun id => summarize (eventsOf es id) id

/-- The traces a listing asks for. -/
def matching (q : Filters) (es : List TraceEvent) : List Summary :=
  (tracesIn (es.filter (TraceEvent.ofTool q.tool))).filter q.passes

section
variable [Host] [EventHost]

/-- The event of a line, if it is one of version 2 that `from_dict` takes. -/
def eventOf : Reading → Option TraceEvent
  | .record r => if isTwo r.schemaVersion then (fromDict r.payload).join else none
  | _ => none

/-- A line over which the loop does not raise. -/
def Passable : Reading → Prop
  | .raised => False
  | .record r => (sizeOf r.payload).isSome ∧
      (isTwo r.schemaVersion = true → (fromDict r.payload).isSome)
  | _ => True

def sizeIn : Reading → ℕ
  | .record r => (sizeOf r.payload).getD 0
  | _ => 0

/-- The log is within the caps of the scan. -/
def Within (caps : Caps) (readings : List Reading) : Prop :=
  (readings.filterMap Reading.record?).length ≤ caps.maxEvents ∧
    (readings.map sizeIn).sum ≤ caps.maxBytes

end

/-! ### The fold -/

theorem eventsOf_concat (es : List TraceEvent) (e : TraceEvent) (id : Str) :
    eventsOf (es ++ [e]) id = if e.traceId = id then eventsOf es id ++ [e] else eventsOf es id := by
  by_cases h : e.traceId = id <;> simp [eventsOf, h]

theorem mem_ids_iff (es : List TraceEvent) (id : Str) :
    id ∈ es.map TraceEvent.traceId ↔ eventsOf es id ≠ [] := by
  simp [eventsOf]

/-- An older event of a trace changes its summary as the loop does. -/
theorem summarize_concat (es : List TraceEvent) (e : TraceEvent) :
    summarize (es ++ [e]) e.traceId =
      Summary.update e (e.completes && (es.find? TraceEvent.completes).isNone)
        (if es = [] then .fresh e else summarize es e.traceId) := by
  have hlatest : latest (es ++ [e]) = max (latest es) e.timestamp := by
    simp [latest]
  have hproviders : ((es ++ [e]).reverse.filterMap TraceEvent.model).eraseDups =
      e.model.elim (es.reverse.filterMap TraceEvent.model).eraseDups
        (moveFront (es.reverse.filterMap TraceEvent.model).eraseDups) := by
    rw [List.reverse_append, List.reverse_singleton, List.singleton_append, List.filterMap_cons]
    cases e.model with
    | none => rfl
    | some m => exact eraseDups_cons_eq m (es.reverse.filterMap TraceEvent.model)
  have hlast : (es ++ [e]).getLast? = some e := List.getLast?_concat
  rw [summarize, hlatest, hproviders, hlast, List.find?_append, List.find?_singleton]
  by_cases hes : es = []
  · subst hes
    have hmax : max (latest []) e.timestamp = e.timestamp := 
      max_eq_right (le_of_not_gt (List.not_lt_nil _))
    cases e.completes <;> simp [Summary.update, Summary.fresh, hmax]
  · rw [if_neg hes, max_def_lt]
    cases hfind : es.find? TraceEvent.completes <;> cases e.completes <;>
      simp [Summary.update, summarize, hfind]

/-- The loop has the traces of the events it took. -/
theorem foldl_note (es : List TraceEvent) :
    (es.foldl Fold.note ⟨[], []⟩).summaries = tracesIn es ∧
      ∀ id, id ∈ (es.foldl Fold.note ⟨[], []⟩).completed ↔
        ((eventsOf es id).find? TraceEvent.completes).isSome = true := by
  induction es using List.reverseRecOn with
  | nil => simp [tracesIn, eventsOf]
  | append_singleton es e ih =>
    obtain ⟨hsummaries, hcompleted⟩ := ih
    rw [List.foldl_append, List.foldl_cons, List.foldl_nil]
    generalize es.foldl Fold.note ⟨[], []⟩ = f at hsummaries hcompleted
    have hnewest : (e.completes && !f.completed.contains e.traceId) =
        (e.completes && ((eventsOf es e.traceId).find? TraceEvent.completes).isNone) := by
      have h := hcompleted e.traceId
      cases hfind : (eventsOf es e.traceId).find? TraceEvent.completes <;> simp_all
    refine ⟨?_, fun id => ?_⟩
    · have hname (id : Str) : (summarize (eventsOf es id) id).traceId = id := rfl
      have hstep := upsert_map hname (es.map TraceEvent.traceId) (Summary.fresh e)
        (Summary.update e (e.completes && ((eventsOf es e.traceId).find? TraceEvent.completes).isNone))
      rw [tracesIn, List.map_append, Fold.note, hnewest, hsummaries]
      refine Eq.trans hstep (List.map_congr_left fun id _ => ?_)
      rw [eventsOf_concat]
      by_cases hid : id = e.traceId
      · subst hid
        rw [if_pos rfl, summarize_concat]
        simp [Summary.fresh, mem_ids_iff]
      · simp [Summary.fresh, hid, Ne.symm hid]
    · rw [eventsOf_concat]
      have h := hcompleted id
      by_cases hid : e.traceId = id
      · subst hid
        rw [if_pos rfl, List.find?_append, List.find?_singleton]
        cases he : e.completes <;>
          cases hfind : (eventsOf es e.traceId).find? TraceEvent.completes <;>
          simp_all [Fold.note]
      · rw [if_neg hid, ← h, Fold.note]
        split_ifs
        · simp [Ne.symm hid]
        · rfl

end AskFable.Trace

import AskFable.Trace.Order
import AskFable.Trace.Pages

/-!
# What newest first builds

The scan meets the events of a trace from the last to the first. The summary it ends with is
the one that the events in the order they were appended define: what names the trace comes
from the first of them, how it ended from the last completion.
-/
namespace AskFable.Trace
open AskFable.Text AskFable.Python AskFable.Grouping

/-! ### A trace in append order -/

/-- The completion that counts. -/
def lastCompletion (es : List TraceEvent) : Option TraceEvent :=
  (es.filter TraceEvent.completes).getLast?

/-- A trace by its events, oldest first. -/
def chronicle (es : List TraceEvent) (id : Str) : Summary where
  traceId := id
  timestamp := (es.map TraceEvent.timestamp).foldr max []
  tool := es.head?.bind TraceEvent.tool
  status := (lastCompletion es).elim (some (txt "incomplete")) TraceEvent.status
  durationMs := (lastCompletion es).bind TraceEvent.durationMs
  session := es.head?.bind TraceEvent.session
  project := es.head?.bind TraceEvent.project
  providers := (es.filterMap TraceEvent.model).eraseDups

theorem latest_reverse (es : List TraceEvent) :
    latest es.reverse = (es.map TraceEvent.timestamp).foldr max [] := by
  rw [latest, List.foldl_reverse, List.foldr_map]
  congr 1
  funext e m
  exact max_comm m e.timestamp

theorem find?_completes_reverse (es : List TraceEvent) :
    es.reverse.find? TraceEvent.completes = lastCompletion es := by
  rw [← List.head?_filter, List.filter_reverse, List.head?_reverse, lastCompletion]

/-- The events of a trace from the last to the first say what they say in append order. -/
theorem summarize_reverse (es : List TraceEvent) (id : Str) :
    summarize es.reverse id = chronicle es id := by
  simp only [summarize, chronicle, latest_reverse, find?_completes_reverse, List.getLast?_reverse,
    List.reverse_reverse]

theorem eventsOf_reverse (es : List TraceEvent) (id : Str) :
    eventsOf es.reverse id = (eventsOf es id).reverse := by
  rw [eventsOf, eventsOf, List.filter_reverse]

/-- The fold over events from the last to the first ends with one summary for each trace. -/
theorem foldl_note_reverse (es : List TraceEvent) :
    (((es.reverse.foldl Fold.note ⟨[], []⟩).summaries).map Summary.traceId).Nodup ∧
      ∀ s, s ∈ (es.reverse.foldl Fold.note ⟨[], []⟩).summaries ↔
        eventsOf es s.traceId ≠ [] ∧ s = chronicle (eventsOf es s.traceId) s.traceId := by
  rw [(foldl_note es.reverse).1, tracesIn]
  have hsummary (id : Str) :
      summarize (eventsOf es.reverse id) id = chronicle (eventsOf es id) id := by
    rw [eventsOf_reverse, summarize_reverse]
  simp only [hsummary]
  constructor
  · have hids : ((es.reverse.map TraceEvent.traceId).eraseDups.map
        fun id => chronicle (eventsOf es id) id).map Summary.traceId =
        (es.reverse.map TraceEvent.traceId).eraseDups := by
      rw [List.map_map]
      exact List.map_id _
    rw [hids]
    exact nodup_eraseDups _
  · intro s
    rw [List.mem_map]
    constructor
    · rintro ⟨id, hid, rfl⟩
      rw [List.mem_eraseDups, mem_ids_iff, eventsOf_reverse, Ne, List.reverse_eq_nil_iff] at hid
      exact ⟨hid, rfl⟩
    · rintro ⟨hne, hs⟩
      refine ⟨s.traceId, ?_, hs.symm⟩
      rw [List.mem_eraseDups, mem_ids_iff, eventsOf_reverse, Ne, List.reverse_eq_nil_iff]
      exact hne

/-! ### The log in append order -/

section
variable [Host]

/-- The lines of the log as they were appended: the oldest file first, each from its start. -/
def appended (p : LogPath) (lineLimit : ℕ) (d : Dir) : List Reading :=
  (p.newestOrder d.keys).reverse.flatMap fun n => readings lineLimit (content d n)

theorem newestReadings_eq_reverse (p : LogPath) (lineLimit : ℕ) (d : Dir) :
    newestReadings p lineLimit d = (appended p lineLimit d).reverse := by
  rw [appended, List.reverse_flatMap, List.reverse_reverse, newestReadings]
  refine List.flatMap_congr fun n _ => ?_
  rw [linesBackwards_eq (show 0 < BACKWARD_BLOCK by decide), List.map_reverse]
  rfl

variable [EventHost]

omit [EventHost] in
theorem within_reverse {caps : Caps} {rs : List Reading} (h : Within caps rs) :
    Within caps rs.reverse := by
  rwa [Within, List.filterMap_reverse, List.length_reverse, List.map_reverse, List.sum_reverse]

/-- The events of the log that a listing of one tool takes, in append order. -/
def appendedEvents (tool : Option Str) (p : LogPath) (lineLimit : ℕ) (d : Dir) : List TraceEvent :=
  ((appended p lineLimit d).filterMap eventOf).filter (TraceEvent.ofTool tool)

/-- Within the caps the scan raises over a line it cannot take, or ends with one summary for
each trace, the one its events in append order define; and the listing is made of these. -/
theorem newest_first_is_chronicle (p : LogPath) (lineLimit : ℕ) (caps : Caps) (q : Filters)
    (limit : ℤ) (d : Dir) (before : Option Str) (hcaps : Within caps (appended p lineLimit d)) :
    let es := appendedEvents q.tool p lineLimit d
    let scanned := scan caps q.tool 0 0 ⟨[], []⟩ (newestReadings p lineLimit d)
    (scanned = none ↔ ∃ r ∈ appended p lineLimit d, ¬Passable r) ∧
      (∀ f, scanned = some f → (f.summaries.map Summary.traceId).Nodup ∧
        ∀ s, s ∈ f.summaries ↔
          eventsOf es s.traceId ≠ [] ∧ s = chronicle (eventsOf es s.traceId) s.traceId) ∧
      (listTraces p lineLimit caps q limit d before = none ↔ scanned = none) ∧
      ∀ page, listTraces p lineLimit caps q limit d before = some page → ∀ s ∈ page.traces,
        eventsOf es s.traceId ≠ [] ∧ s = chronicle (eventsOf es s.traceId) s.traceId := by
  intro es scanned
  have hreverse := within_reverse hcaps
  rw [← newestReadings_eq_reverse] at hreverse
  obtain ⟨hpassed, hraised⟩ := scan_within q.tool (newestReadings p lineLimit d) 0 0 ⟨[], []⟩
    (by simpa using hreverse.1) (by simpa using hreverse.2)
  have hpass : (∀ r ∈ newestReadings p lineLimit d, Passable r) ↔
      ∀ r ∈ appended p lineLimit d, Passable r := by
    simp only [newestReadings_eq_reverse, List.mem_reverse]
  have hevents : ((newestReadings p lineLimit d).filterMap eventOf).filter
      (TraceEvent.ofTool q.tool) = es.reverse := by
    rw [newestReadings_eq_reverse, List.filterMap_reverse, List.filter_reverse]
    rfl
  rw [hevents, hpass] at hpassed
  rw [hpass] at hraised
  have hfold (f : Fold) (hf : scanned = some f) : (f.summaries.map Summary.traceId).Nodup ∧
      ∀ s, s ∈ f.summaries ↔
        eventsOf es s.traceId ≠ [] ∧ s = chronicle (eventsOf es s.traceId) s.traceId := by
    by_cases hall : ∀ r ∈ appended p lineLimit d, Passable r
    · obtain rfl := Option.some.inj ((hpassed hall).symm.trans hf)
      exact foldl_note_reverse es
    · have hnone : scanned = none := hraised hall
      rw [hnone] at hf
      nomatch hf
  refine ⟨?_, hfold, ?_, ?_⟩
  · by_cases hall : ∀ r ∈ appended p lineLimit d, Passable r
    · have hsome : scanned = some _ := hpassed hall
      rw [hsome]
      simpa using hall
    · have hnone : scanned = none := hraised hall
      simpa [hnone] using hall
  · rw [listTraces, Option.map_eq_none_iff]
  · intro page hpage s hs
    obtain ⟨f, hf, rfl⟩ := Option.map_eq_some_iff.mp hpage
    refine ((hfold f hf).2 s).mp ?_
    have hlisted : s ∈ listed q f := List.mem_of_mem_filter (List.mem_of_mem_take hs)
    exact List.mem_of_mem_filter ((List.mem_insertionSort _).mp hlisted)

end

/-- A log of one trace that completed twice. -/
theorem newest_first_is_chronicle_twice : let : Host := Host.ascii; let : EventHost := EventHost.iso
    let d := completedLog [(txt "a", newYear.isoZ), (txt "a", newYear.isoZ)]
    let es := appendedEvents none decisions (maxLineBytes none) d
    let scanned := scan (Caps.of none none) none 0 0 ⟨[], []⟩
      (newestReadings decisions (maxLineBytes none) d)
    Within (Caps.of none none) (appended decisions (maxLineBytes none) d) ∧
    (scanned = none ↔ ∃ r ∈ appended decisions (maxLineBytes none) d, ¬Passable r) ∧
      (∀ f, scanned = some f → (f.summaries.map Summary.traceId).Nodup ∧
        ∀ s, s ∈ f.summaries ↔
          eventsOf es s.traceId ≠ [] ∧ s = chronicle (eventsOf es s.traceId) s.traceId) ∧
      (listTraces decisions (maxLineBytes none) (Caps.of none none) .none 1 d none = none ↔
        scanned = none) ∧
      ∀ page, listTraces decisions (maxLineBytes none) (Caps.of none none) .none 1 d none =
        some page → ∀ s ∈ page.traces,
          eventsOf es s.traceId ≠ [] ∧ s = chronicle (eventsOf es s.traceId) s.traceId := by
  let : Host := Host.ascii
  let : EventHost := EventHost.iso
  have hcaps : Within (Caps.of none none) (appended decisions (maxLineBytes none)
      (completedLog [(txt "a", newYear.isoZ), (txt "a", newYear.isoZ)])) := by
    unfold Within
    decide +kernel
  exact ⟨hcaps, newest_first_is_chronicle decisions (maxLineBytes none) (Caps.of none none) .none 1
    _ none hcaps⟩

end AskFable.Trace

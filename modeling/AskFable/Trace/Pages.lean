import AskFable.Trace.Query

/-!
# When the pages hold every trace

Within the caps the scan sees the whole log. The pages then hold every matching trace, each
once and in the order of time, exactly when no page ends among traces of one timestamp and
no two traces of one second are written one with and one without a fraction.
-/
namespace AskFable.Trace
open AskFable.Text AskFable.Python AskFable.Python.JsonText AskFable.Paging

section
variable [Host] [EventHost]

/-! ### The scan -/

/-- What the loop does with a record that the caps let through. -/
theorem scan_record {caps : Caps} (tool : Option Str) {index scanned : ℕ}
    (hindex : index < caps.maxEvents) (f : Fold) (r : StoredRecord) (rest : List Reading)
    (hscanned : scanned + sizeIn (.record r) ≤ caps.maxBytes) :
    (Passable (.record r) → scan caps tool index scanned f (.record r :: rest) =
        scan caps tool (index + 1) (scanned + sizeIn (.record r))
          (((eventOf (.record r)).toList.filter (TraceEvent.ofTool tool)).foldl Fold.note f) rest) ∧
      (¬Passable (.record r) → scan caps tool index scanned f (.record r :: rest) = none) := by
  unfold Passable eventOf
  rw [scan]
  cases hsize : sizeOf r.payload with
  | none => simp [hsize]
  | some size =>
    have hbytes : ¬caps.maxBytes < scanned + size := by
      simp only [sizeIn, hsize, Option.getD_some] at hscanned
      omega
    have hevents : ¬caps.maxEvents ≤ index := by omega
    simp only [hbytes, hevents, if_false, sizeIn, hsize, Option.getD_some, Option.isSome_some,
      true_and]
    cases htwo : isTwo r.schemaVersion with
    | false => simp
    | true =>
      cases hread : fromDict r.payload with
      | none => simp
      | some event =>
        cases event with
        | none => simp
        | some e => cases hof : e.ofTool tool <;> simp [hof]

/-- Within the caps the loop folds every event of the log, or raises. -/
theorem scan_within {caps : Caps} (tool : Option Str) (rs : List Reading) (index scanned : ℕ)
    (f : Fold) (hindex : index + (rs.filterMap Reading.record?).length ≤ caps.maxEvents)
    (hscanned : scanned + (rs.map sizeIn).sum ≤ caps.maxBytes) :
    ((∀ r ∈ rs, Passable r) → scan caps tool index scanned f rs =
        some (((rs.filterMap eventOf).filter (TraceEvent.ofTool tool)).foldl Fold.note f)) ∧
      ((¬∀ r ∈ rs, Passable r) → scan caps tool index scanned f rs = none) := by
  induction rs generalizing index scanned f with
  | nil => simp [scan]
  | cons r rs ih =>
    rw [List.map_cons, List.sum_cons] at hscanned
    have hevents : ((r :: rs).filterMap eventOf).filter (TraceEvent.ofTool tool) =
        (eventOf r).toList.filter (TraceEvent.ofTool tool) ++
          (rs.filterMap eventOf).filter (TraceEvent.ofTool tool) := by
      rw [← List.filter_append, List.filterMap_cons]
      cases eventOf r <;> rfl
    rw [List.forall_mem_cons, hevents, List.foldl_append]
    cases r with
    | raised => simp [scan, Passable]
    | record r =>
      simp only [List.filterMap_cons, Reading.record?, List.length_cons] at hindex
      have hroom : index < caps.maxEvents := by omega
      have hbytes : scanned + sizeIn (.record r) ≤ caps.maxBytes := by omega
      obtain ⟨hpass, hraise⟩ := scan_record tool hroom f r rs hbytes
      by_cases hr : Passable (.record r)
      · rw [hpass hr]
        have hrest := ih (index + 1) (scanned + sizeIn (.record r))
          (((eventOf (.record r)).toList.filter (TraceEvent.ofTool tool)).foldl Fold.note f)
          (by omega) (by omega)
        simpa [hr] using hrest
      · simp [hraise hr, hr]
    | unsupported | truncated | passed =>
      have hrest := ih index scanned f hindex (by simpa [sizeIn] using hscanned)
      simpa [scan, Passable, eventOf] using hrest

/-! ### The pages -/

omit [Host] [EventHost] in
theorem listed_sorted (q : Filters) (f : Fold) :
    (listed q f).Pairwise fun a b => b.timestamp ≤ a.timestamp := by
  have : Std.Total fun a b : Summary => b.timestamp ≤ a.timestamp := ⟨fun _ _ => le_total _ _⟩
  have : IsTrans Summary fun a b => b.timestamp ≤ a.timestamp := ⟨fun _ _ _ h h' => le_trans h' h⟩
  exact List.pairwise_insertionSort _ _

omit [Host] [EventHost] in
theorem listed_perm (q : Filters) (f : Fold) : (listed q f).Perm (f.summaries.filter q.passes) :=
  List.perm_insertionSort _ _

/-- A listing is a page of the sorted traces. -/
theorem allPages_eq {p : LogPath} {lineLimit : ℕ} {caps : Caps} {q : Filters} (limit : ℤ) {d : Dir}
    {f : Fold} (hscan : scan caps q.tool 0 0 ⟨[], []⟩ (newestReadings p lineLimit d) = some f)
    (hne : ∀ s ∈ listed q f, s.timestamp ≠ []) (fuel : ℕ) {before : Option Str}
    (hbefore : before ≠ some []) :
    allPages (listTraces p lineLimit caps q limit d) fuel before =
      walk Summary.timestamp (bounded limit) (listed q f) fuel before := by
  induction fuel generalizing before with
  | zero => rfl
  | succ fuel ih =>
    have hvalues : (listed q f).filter (fun s => admits before fun b => s.timestamp < b) =
        below Summary.timestamp (listed q f) before := by
      cases before with
      | none => simp [admits, below]
      | some b =>
        have hb : b.isEmpty = false := List.isEmpty_eq_false_iff.mpr fun h => hbefore (h ▸ rfl)
        refine List.filter_congr fun s _ => ?_
        rw [admits, Option.elim_some, hb, Bool.false_or, decide_eq_decide]
    have hpage : pageOf q limit before f = ⟨(page Summary.timestamp (bounded limit) (listed q f) before).1,
        (page Summary.timestamp (bounded limit) (listed q f) before).2⟩ := by
      rw [pageOf, hvalues]
      rfl
    rw [allPages, walk, listTraces, hscan, Option.map_some, hpage]
    rcases hnext : page Summary.timestamp (bounded limit) (listed q f) before with ⟨traces, _ | s⟩
    · rfl
    · obtain ⟨a, ha, rfl⟩ := exists_of_cursor (congrArg Prod.snd hnext)
      simp only [ih fun heq => hne a ha (Option.some.inj heq)]

/-! ### The order of time -/

/-- The second of two traces is not later. -/
def InOrder (a b : Summary) : Prop :=
  ∀ s t : Datetime, a.timestamp = s.isoZ → b.timestamp = t.isoZ → t ≤ s

/-- Two traces of one second of which only the second is written with a fraction. -/
def UnlikeStamps (a b : Summary) : Prop :=
  ∃ s t : Datetime, a.timestamp = s.isoZ ∧ b.timestamp = t.isoZ ∧ s.Unlike t

omit [Host] [EventHost] in
/-- A list by descending timestamp is in the order of time exactly when no two of it are
written unlike. -/
theorem pairwise_inOrder_iff {l : List Summary}
    (hsorted : l.Pairwise fun a b => b.timestamp ≤ a.timestamp) :
    l.Pairwise InOrder ↔ ∀ a ∈ l, ∀ b ∈ l, ¬UnlikeStamps a b := by
  refine ⟨fun h a ha b hb hunlike => ?_, fun h => hsorted.imp_of_mem fun {a b} ha hb hle => ?_⟩
  · obtain ⟨s, t, hs, ht, hst⟩ := hunlike
    obtain ⟨hlt, hrev⟩ := hst.reversed
    have hne : a ≠ b := by
      rintro rfl
      exact absurd (Datetime.isoZ_injective (hs.symm.trans ht)) (ne_of_lt hlt)
    have hboth : l.Pairwise fun a b => (b.timestamp ≤ a.timestamp ∧ InOrder a b) ∨
        (a.timestamp ≤ b.timestamp ∧ InOrder b a) := (hsorted.and h).imp Or.inl
    have : Std.Symm fun a b : Summary => (b.timestamp ≤ a.timestamp ∧ InOrder a b) ∨
        (a.timestamp ≤ b.timestamp ∧ InOrder b a) := ⟨fun _ _ => Or.symm⟩
    rcases hboth.forall ha hb hne with ⟨-, horder⟩ | ⟨hle, -⟩
    · exact absurd (horder s t hs ht) (not_le_of_gt hlt)
    · rw [hs, ht] at hle
      exact absurd hle (not_le_of_gt hrev)
  · intro s t hs ht
    have hst : ¬s.Unlike t := fun hu => h a ha b hb ⟨s, t, hs, ht, hu⟩
    have hts : ¬t.Unlike s := fun hu => h b hb a ha ⟨t, s, ht, hs, hu⟩
    rw [hs, ht] at hle
    exact (Datetime.isoZ_le_iff hts hst).mp hle

/-! ### All pages together -/

omit [Host] [EventHost] in
theorem latest_mem {es : List TraceEvent} (h : es ≠ []) : ∃ e ∈ es, e.timestamp = latest es := by
  induction es using List.reverseRecOn with
  | nil => exact absurd rfl h
  | append_singleton es e ih =>
    have hstep : latest (es ++ [e]) = max (latest es) e.timestamp := by simp [latest]
    rw [hstep]
    by_cases hle : latest es ≤ e.timestamp
    · exact ⟨e, by simp, (max_eq_right hle).symm⟩
    · have hes : es ≠ [] := by
        rintro rfl
        exact hle (le_of_not_gt (List.not_lt_nil _))
      obtain ⟨e', hmem, he'⟩ := ih hes
      exact ⟨e', by simp [hmem], by rw [he', max_eq_left (le_of_not_ge hle)]⟩

omit [Host] [EventHost] in
/-- A trace is listed under the timestamp of one of its events. -/
theorem timestamp_of_mem {es : List TraceEvent} {s : Summary} (h : s ∈ tracesIn es) :
    ∃ e ∈ es, e.timestamp = s.timestamp := by
  obtain ⟨id, hid, rfl⟩ := List.mem_map.mp h
  obtain ⟨e, he, htimestamp⟩ := latest_mem ((mem_ids_iff es id).mp (List.mem_eraseDups.mp hid))
  exact ⟨e, (List.mem_filter.mp he).1, htimestamp⟩

/-- What the loop raises over, every listing raises over. -/
theorem allPages_raises {p : LogPath} {lineLimit : ℕ} {caps : Caps} {q : Filters} {limit : ℤ}
    {d : Dir} (h : scan caps q.tool 0 0 ⟨[], []⟩ (newestReadings p lineLimit d) = none) (fuel : ℕ)
    (before : Option Str) : allPages (listTraces p lineLimit caps q limit d) fuel before = none := by
  cases fuel with
  | zero => rfl
  | succ fuel => rw [allPages, listTraces, h, Option.map_none]

/-- The pages of a log within the caps end, and hold every matching trace once and in the
order of time, exactly when the scan passes every line, no page ends between traces of one
timestamp, and no two traces of one second are written unlike. -/
theorem pages_complete_iff (p : LogPath) (lineLimit : ℕ) (caps : Caps) (q : Filters) {limit : ℤ}
    (hpos : 1 ≤ limit) (hmax : limit ≤ 100) (d : Dir)
    (hcaps : Within caps (newestReadings p lineLimit d))
    (hnew : ∀ e ∈ (newestReadings p lineLimit d).filterMap eventOf, ∃ t : Datetime, e.timestamp = t.isoZ) :
    (∃ fuel result, allPages (listTraces p lineLimit caps q limit d) fuel none = some result ∧
        result.Perm (matching q ((newestReadings p lineLimit d).filterMap eventOf)) ∧
        result.Pairwise InOrder) ↔
      (∀ r ∈ newestReadings p lineLimit d, Passable r) ∧
        Separated Summary.timestamp limit.toNat
          (matching q ((newestReadings p lineLimit d).filterMap eventOf)) ∧
        ∀ a ∈ matching q ((newestReadings p lineLimit d).filterMap eventOf),
          ∀ b ∈ matching q ((newestReadings p lineLimit d).filterMap eventOf), ¬UnlikeStamps a b := by
  obtain ⟨hpassed, hraised⟩ := scan_within q.tool (newestReadings p lineLimit d) 0 0 ⟨[], []⟩
    (by simpa using hcaps.1) (by simpa using hcaps.2)
  by_cases hpass : ∀ r ∈ newestReadings p lineLimit d, Passable r
  · have hscan := hpassed hpass
    generalize hevents : (newestReadings p lineLimit d).filterMap eventOf = es at hnew hscan
    generalize hfold : (es.filter (TraceEvent.ofTool q.tool)).foldl Fold.note ⟨[], []⟩ = f at hscan
    have hsize : bounded limit = limit.toNat := by
      unfold bounded
      omega
    have hperm : (listed q f).Perm (matching q es) := by
      rw [matching, ← (foldl_note _).1, hfold]
      exact listed_perm q f
    have hsorted := listed_sorted q f
    have hne : ∀ s ∈ listed q f, s.timestamp ≠ [] := by
      intro s hs
      obtain ⟨e, he, htimestamp⟩ := timestamp_of_mem (List.mem_of_mem_filter (hperm.mem_iff.mp hs))
      obtain ⟨t, ht⟩ := hnew e (List.mem_of_mem_filter he)
      rw [← htimestamp, ht]
      simp [Datetime.isoZ, txt]
    have hstart : (none : Option Str) ≠ some [] := by simp
    have hpages (fuel : ℕ) := allPages_eq limit hscan hne fuel hstart
    have hwhole (r : List Summary) := walk_whole_iff hsorted (by omega : 0 < bounded limit) r
    have horder : (listed q f).Pairwise InOrder ↔
        ∀ a ∈ matching q es, ∀ b ∈ matching q es, ¬UnlikeStamps a b := by
      simp only [pairwise_inOrder_iff hsorted, hperm.mem_iff]
    rw [← hsize, ← separated_perm hperm, ← horder]
    simp only [hpages]
    refine ⟨fun ⟨fuel, result, hwalk, hresult, hpair⟩ => ?_, fun ⟨_, hsep, hpair⟩ => ?_⟩
    · obtain ⟨heq, hsep⟩ := (hwhole result).mp ⟨fuel, hwalk, hresult.trans hperm.symm⟩
      exact ⟨hpass, hsep, heq ▸ hpair⟩
    · obtain ⟨fuel, hwalk, -⟩ := (hwhole _).mpr ⟨rfl, hsep⟩
      exact ⟨fuel, listed q f, hwalk, hperm, hpair⟩
  · refine iff_of_false ?_ fun h => hpass h.1
    rintro ⟨fuel, result, hresult, -⟩
    rw [allPages_raises (hraised hpass)] at hresult
    simp at hresult

end

/-- A log of completed calls, each with its trace and timestamp. -/
def completedLog (calls : List (Str × Str)) : Dir :=
  (∅ : Dir).insert decisions.name (Utf8.encodePass (calls.flatMap fun c =>
    txt "\x7b\"schema_version\":2,\"event_id\":\"e\",\"span_id\":\"s\",\"kind\":\"tool\"," ++
      txt "\"event_name\":\"tool.completed\",\"trace_id\":\"" ++ c.1 ++ txt "\",\"timestamp\":\"" ++
      c.2 ++ txt "\"\x7d\n"))

/-- Every trace, whatever its fields. -/
def Filters.none : Filters := ⟨.none, .none, .none, .none, .none⟩

/-- One call on its own page. -/
theorem pages_complete_iff_one : let : Host := Host.ascii; let : EventHost := EventHost.iso
    let d := completedLog [(txt "a", newYear.isoZ)]
    let readings := newestReadings decisions (maxLineBytes none) d
    (∃ fuel result, allPages (listTraces decisions (maxLineBytes none) (Caps.of none none) .none 1 d)
          fuel none = some result ∧
        result.Perm (matching .none (readings.filterMap eventOf)) ∧ result.Pairwise InOrder) ↔
      (∀ r ∈ readings, Passable r) ∧
        Separated Summary.timestamp 1 (matching .none (readings.filterMap eventOf)) ∧
        ∀ a ∈ matching .none (readings.filterMap eventOf),
          ∀ b ∈ matching .none (readings.filterMap eventOf), ¬UnlikeStamps a b := by
  let : Host := Host.ascii
  let : EventHost := EventHost.iso
  have hcaps : Within (Caps.of none none) (newestReadings decisions (maxLineBytes none)
      (completedLog [(txt "a", newYear.isoZ)])) := by
    unfold Within
    decide +kernel
  have hnew : ∀ e ∈ (newestReadings decisions (maxLineBytes none)
      (completedLog [(txt "a", newYear.isoZ)])).filterMap eventOf, e.timestamp = newYear.isoZ := by
    decide +kernel
  exact pages_complete_iff decisions (maxLineBytes none) (Caps.of none none) .none (le_refl 1)
    (by decide) _ hcaps fun e he => ⟨newYear, hnew e he⟩

/-- Of two traces of one timestamp the second is on no page of one. -/
theorem tied_trace_lost : let : Host := Host.ascii; let : EventHost := EventHost.iso
    let d := completedLog [(txt "a", newYear.isoZ), (txt "b", newYear.isoZ)]
    let readings := newestReadings decisions (maxLineBytes none) d
    ((readings.filterMap eventOf).map fun e => e.timestamp) = [newYear.isoZ, newYear.isoZ] ∧
      ((matching .none (readings.filterMap eventOf)).map fun s => s.traceId) = [txt "b", txt "a"] ∧
      (allPages (listTraces decisions (maxLineBytes none) (Caps.of none none) .none 1 d) 2 none).map
        (fun traces => traces.map fun s => s.traceId) = some [txt "b"] := by
  decide +kernel

end AskFable.Trace

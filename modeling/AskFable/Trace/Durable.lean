import AskFable.Trace.Store
import Mathlib.Data.List.Flatten

/-!
# What an append confirmed stays readable

The writer looks neither at the last line of the file nor at the limit of the reader. As
long as a confirmed line starts on a line of its own, fits the limit and has a version the
reader takes, the log yields it in every later state, with all it yielded before, and in
the order of the appends when the clock does not go back. An append on top of a torn line
loses both.
-/
namespace AskFable.Trace
open AskFable.Text AskFable.Python AskFable.Python.JsonText AskFable.Python.Bytes AskFable.Lines

section
variable [Host]

/-! ### What a file yields -/

def recordsIn (limit : ℕ) (bytes : Bytes) : List StoredRecord :=
  ((linesForward limit bytes).map readLine).filterMap Reading.record?

def raisesIn (limit : ℕ) (bytes : Bytes) : Bool :=
  ((linesForward limit bytes).map readLine).any Reading.isRaised

theorem recordsIn_append (limit : ℕ) (c w : Bytes) :
    recordsIn limit (c ++ w) = recordsIn limit (whole NL c) ++ recordsIn limit (unfinished NL c ++ w) := by
  simp only [recordsIn, linesForward_eq]
  rw [lines_append_unfinished NL c w, List.filter_append, List.map_append, List.filterMap_append]

theorem raisesIn_append (limit : ℕ) (c w : Bytes) :
    raisesIn limit (c ++ w) =
      (raisesIn limit (whole NL c) || raisesIn limit (unfinished NL c ++ w)) := by
  simp only [raisesIn, linesForward_eq]
  rw [lines_append_unfinished NL c w, List.filter_append, List.map_append, List.any_append]

theorem recordsIn_split (limit : ℕ) (c : Bytes) :
    recordsIn limit c = recordsIn limit (whole NL c) ++ recordsIn limit (unfinished NL c) := by
  simpa using recordsIn_append limit c []

theorem raisesIn_split (limit : ℕ) (c : Bytes) :
    raisesIn limit c = (raisesIn limit (whole NL c) || raisesIn limit (unfinished NL c)) := by
  simpa using raisesIn_append limit c []

@[simp] theorem recordsIn_nil (limit : ℕ) : recordsIn limit [] = [] := by
  simp [recordsIn, linesForward_eq, lines]

@[simp] theorem raisesIn_nil (limit : ℕ) : raisesIn limit [] = false := by
  simp [raisesIn, linesForward_eq, lines]

/-- One line that ends the file. -/
theorem recordsIn_line (limit : ℕ) {x : Bytes} (h : NL ∉ x) :
    recordsIn limit (x ++ [NL]) =
      if x.length ≤ limit then (readLine (x ++ [NL])).record?.toList else [] := by
  rw [recordsIn, linesForward_eq, lines_ended h, lines]
  by_cases hfits : x.length ≤ limit
  · simp only [hfits, List.filter_cons, fits_ended, decide_true, if_true, List.filter_nil,
      List.map_cons, List.map_nil, List.filterMap_cons, List.filterMap_nil]
    cases (readLine (x ++ [NL])).record? <;> rfl
  · simp [hfits, fits_ended]

theorem raisesIn_line (limit : ℕ) {x : Bytes} (h : NL ∉ x) :
    raisesIn limit (x ++ [NL]) = (decide (x.length ≤ limit) && (readLine (x ++ [NL])).isRaised) := by
  rw [raisesIn, linesForward_eq, lines_ended h, lines]
  by_cases hfits : x.length ≤ limit <;> simp [hfits, fits_ended]

/-! ### One written line -/

/-- A byte of JSON whitespace that breaks no line. -/
def isBlank (b : Byte) : Bool := b == byte 32 || b == byte 9 || b == byte 13

/-- Where a confirmed line stands for the reader to yield it: after nothing but blanks on
its line, within the limit, and with a version the reader takes. -/
structure Lands (limit : ℕ) (c bytes : Bytes) (payload : Dict) : Prop where
  blank : ∀ b ∈ unfinished NL c, isBlank b = true
  short : (unfinished NL c).length + bytes.length ≤ limit + 1
  version : supported (versionOf payload) = true

def Event.record (e : Event) : StoredRecord := ⟨versionOf e.payload, e.payload⟩

/-- A written line is its text and one line break. -/
theorem encode_line {e : Event} {line : Str} {bytes : Bytes} (hline : lineOf e.payload = some line)
    (hbytes : Utf8.encode line = some bytes) :
    ∃ t, dumps (.obj e.payload) = some t ∧ depth (.obj e.payload) ≤ Host.nestLimit ∧
      t.any isSurrogate = false ∧ bytes = Utf8.encodePass t ++ [NL] ∧ NL ∉ Utf8.encodePass t := by
  unfold lineOf at hline
  split_ifs at hline with hdepth
  obtain ⟨t, ht, rfl⟩ := Option.map_eq_some_iff.mp hline
  unfold Utf8.encode at hbytes
  split_ifs at hbytes with hsurrogate
  have hfeed : Utf8.encodePass (txt "\n") = [NL] := by decide
  rw [Utf8.encodePass_append, hfeed] at hbytes
  rw [List.any_append, Bool.or_eq_true, not_or, Bool.not_eq_true] at hsurrogate
  refine ⟨t, ht, hdepth, hsurrogate.1, (Option.some.inj hbytes).symm, ?_⟩
  intro hmem
  obtain ⟨c, hc, hb⟩ := List.mem_flatMap.mp hmem
  have hprinted := (printed_iff t).mp (dumps_printed _ ht e.held) c hc
  have hval : NL.val = 10 := rfl
  rcases Utf8.mem_encodeChar hb with h | h <;> omega

/-! ### Blanks -/

def blanks (w : Bytes) : Str := w.map Utf8.ascii

omit [Host] in
theorem isBlank_cases {b : Byte} (h : isBlank b = true) : b = byte 32 ∨ b = byte 9 ∨ b = byte 13 := by
  simpa [isBlank, or_assoc] using h

omit [Host] in
theorem encodePass_blanks {w : Bytes} (h : ∀ b ∈ w, isBlank b = true) :
    Utf8.encodePass (blanks w) = w := by
  induction w with
  | nil => rfl
  | cons b w ih =>
    rw [List.forall_mem_cons] at h
    have hb : Utf8.encodeChar (Utf8.ascii b) = [b] := by
      rcases isBlank_cases h.1 with rfl | rfl | rfl <;> rfl
    have hw := ih h.2
    unfold Utf8.encodePass blanks at hw ⊢
    rw [List.map_cons, List.flatMap_cons, hb, hw]
    rfl

omit [Host] in
theorem blanks_ws {w : Bytes} (h : ∀ b ∈ w, isBlank b = true) : ∀ c ∈ blanks w, isWs c = true := by
  intro c hc
  obtain ⟨b, hb, rfl⟩ := List.mem_map.mp hc
  rcases isBlank_cases (h b hb) with rfl | rfl | rfl <;> decide

omit [Host] in
theorem ws_surrogate {w : Str} (h : ∀ c ∈ w, isWs c = true) : w.any isSurrogate = false := by
  rw [List.any_eq_false]
  intro c hc
  have hws := h c hc
  simp only [isWs, Bool.or_eq_true, beq_iff_eq] at hws
  rcases hws with ((rfl | rfl) | rfl) | rfl <;> decide

/-- Whitespace alone is no document. -/
theorem loads_ws {w : Str} (h : ∀ c ∈ w, isWs c = true) : loads w = .error .value := by
  have hskip : skipWs w = [] := List.dropWhile_eq_nil_iff.mpr h
  rw [loads, hskip]
  split_ifs
  · rfl
  · rfl

theorem readLine_blank {w : Bytes} (h : ∀ b ∈ w, isBlank b = true) : readLine w = undecoded w := by
  have henc : Utf8.encode (blanks w) = some w := by
    rw [Utf8.encode, ws_surrogate (blanks_ws h), encodePass_blanks h]
    rfl
  rw [readLine, Utf8.decode_encode henc]
  dsimp only
  rw [loads_ws (blanks_ws h)]

theorem recordsIn_blank (limit : ℕ) {w : Bytes} (h : ∀ b ∈ w, isBlank b = true) (hw : NL ∉ w) :
    recordsIn limit w = [] ∧ raisesIn limit w = false := by
  by_cases hne : w = []
  · simp [hne]
  have hread : readLine w = .truncated := by
    rw [readLine_blank h, undecoded, endsLine_unbroken hw]
    rfl
  by_cases hfits : w.length ≤ limit
  · simp [recordsIn, raisesIn, linesForward_eq, lines_unbroken hw hne, fits_unbroken limit hw, hfits,
      hread, Reading.record?, Reading.isRaised]
  · simp [recordsIn, raisesIn, linesForward_eq, lines_unbroken hw hne, fits_unbroken limit hw, hfits]

/-- Behind blanks, a written line reads as its record. -/
theorem readLine_written {e : Event} {line : Str} {bytes w : Bytes}
    (hline : lineOf e.payload = some line) (hbytes : Utf8.encode line = some bytes)
    (hw : ∀ b ∈ w, isBlank b = true) (hversion : supported (versionOf e.payload) = true) :
    readLine (w ++ bytes) = .record e.record := by
  obtain ⟨t, ht, hdepth, hsurrogate, rfl, -⟩ := encode_line hline hbytes
  have hfeed : ∀ c ∈ txt "\n", isWs c = true := List.all_eq_true.mp (by decide)
  have henc : Utf8.encode (blanks w ++ t ++ txt "\n") = some (w ++ (Utf8.encodePass t ++ [NL])) := by
    have hnl : Utf8.encodePass (txt "\n") = [NL] := by decide
    rw [Utf8.encode, List.any_append, List.any_append, ws_surrogate (blanks_ws hw), hsurrogate,
      ws_surrogate hfeed, Utf8.encodePass_append, Utf8.encodePass_append, encodePass_blanks hw, hnl,
      List.append_assoc]
    rfl
  rw [readLine, Utf8.decode_encode henc]
  dsimp only
  rw [loads_dumps ht e.held hdepth (blanks_ws hw) hfeed]
  dsimp only
  rw [if_pos hversion]
  rfl

/-- A confirmed line adds its record and nothing else. -/
theorem recordsIn_landed {limit : ℕ} {c bytes : Bytes} {e : Event} {line : Str}
    (hline : lineOf e.payload = some line) (hbytes : Utf8.encode line = some bytes)
    (h : Lands limit c bytes e.payload) :
    recordsIn limit (c ++ bytes) = recordsIn limit c ++ [e.record] ∧
      raisesIn limit (c ++ bytes) = raisesIn limit c := by
  have hread := readLine_written hline hbytes h.blank h.version
  obtain ⟨htail, hquiet⟩ := recordsIn_blank limit h.blank (notMem_unfinished NL c)
  obtain ⟨t, -, -, -, rfl, hunbroken⟩ := encode_line hline hbytes
  have hshort := h.short
  rw [List.length_append, List.length_singleton] at hshort
  have hx : NL ∉ unfinished NL c ++ Utf8.encodePass t := by
    rw [List.mem_append, not_or]
    exact ⟨notMem_unfinished NL c, hunbroken⟩
  have hfits : (unfinished NL c ++ Utf8.encodePass t).length ≤ limit := by
    rw [List.length_append]
    omega
  rw [← List.append_assoc] at hread
  rw [recordsIn_append, recordsIn_split limit c, raisesIn_append, raisesIn_split limit c, htail,
    hquiet, ← List.append_assoc, recordsIn_line limit hx, raisesIn_line limit hx, if_pos hfits, hread]
  simp [Reading.record?, Reading.isRaised]

/-- A torn write takes nothing away unless its line was a record already. -/
theorem recordsIn_torn {limit : ℕ} {c w : Bytes}
    (h : w = [] ∨ recordsIn limit (unfinished NL c) = [] ∧ raisesIn limit (unfinished NL c ++ w) = false) :
    (recordsIn limit c).Sublist (recordsIn limit (c ++ w)) ∧
      (raisesIn limit c = false → raisesIn limit (c ++ w) = false) := by
  rcases h with rfl | ⟨htail, hquiet⟩
  · simp
  · rw [recordsIn_append, recordsIn_split limit c, htail, raisesIn_append, hquiet, raisesIn_split]
    refine ⟨by simp, ?_⟩
    simp only [Bool.or_eq_false_iff, Bool.or_false]
    exact And.left

/-! ### What the log yields -/

section
variable (p : LogPath) (limit : ℕ)

/-- What a file contributes. -/
def yields (d : Dir) (name : Str) : List StoredRecord := recordsIn limit (content d name)

/-- The records of the files that are read, in no particular order. -/
def total (d : Dir) : List StoredRecord := (d.keys.filter p.readable).flatMap (yields limit d)

/-- Nothing in the log makes the reader raise. -/
def Quiet (d : Dir) : Prop := ∀ n, p.readable n = true → raisesIn limit (content d n) = false

variable {p limit}

theorem any_readings (names : List Str) (d : Dir) :
    (names.flatMap fun n => (linesForward limit (content d n)).map readLine).any Reading.isRaised =
      names.any fun n => raisesIn limit (content d n) := by
  rw [List.any_flatMap]
  rfl

theorem filterMap_readings (names : List Str) (d : Dir) :
    (names.flatMap fun n => (linesForward limit (content d n)).map readLine).filterMap
      Reading.record? = names.flatMap (yields limit d) := by
  rw [List.filterMap_flatMap]
  rfl

omit [Host] in
theorem mem_forwardOrder {n : Str} {names : List Str} :
    n ∈ p.forwardOrder names ↔ n ∈ names ∧ p.readable n = true := by
  rw [(p.forwardOrder_perm names).mem_iff, List.mem_filter]

theorem iterRecords_some {d : Dir} {scan : Scan} (h : iterRecords p limit d = some scan) :
    Quiet p limit d ∧ scan.records = (p.forwardOrder d.keys).flatMap (yields limit d) := by
  unfold iterRecords Scan.of at h
  split_ifs at h with hraised
  rw [any_readings, List.any_eq_true] at hraised
  rw [filterMap_readings] at h
  refine ⟨fun n hn => ?_, by rw [← Option.some.inj h]⟩
  by_cases hmem : n ∈ d.keys
  · by_contra hraises
    exact hraised ⟨n, mem_forwardOrder.mpr ⟨hmem, hn⟩, by simpa using hraises⟩
  · rw [content_of_notMem hmem, raisesIn_nil]

theorem iterRecords_of_quiet {d : Dir} (h : Quiet p limit d) :
    ∃ scan, iterRecords p limit d = some scan ∧
      scan.records = (p.forwardOrder d.keys).flatMap (yields limit d) := by
  have hraised : ¬((p.forwardOrder d.keys).any fun n => raisesIn limit (content d n)) = true := by
    rw [List.any_eq_true]
    rintro ⟨n, hn, hraises⟩
    rw [h n (mem_forwardOrder.mp hn).2] at hraises
    simp at hraises
  unfold iterRecords Scan.of
  rw [any_readings, if_neg hraised, filterMap_readings]
  exact ⟨_, rfl, rfl⟩

theorem forward_perm_total (p : LogPath) (limit : ℕ) (d : Dir) :
    ((p.forwardOrder d.keys).flatMap (yields limit d)).Perm (total p limit d) :=
  (p.forwardOrder_perm d.keys).flatMap_right _

/-! ### One file changes -/

/-- The other files. -/
def others (p : LogPath) (limit : ℕ) (d : Dir) (n : Str) : List StoredRecord :=
  ((d.erase n).keys.filter p.readable).flatMap (yields limit d)

theorem others_congr (d d' : Dir) (n : Str) (h : ∀ m, m ≠ n → content d' m = content d m) :
    ((d.erase n).keys.filter p.readable).flatMap (yields limit d') = others p limit d n := by
  refine List.flatMap_congr fun m hm => ?_
  have hne : m ≠ n := (AList.mem_erase.mp (List.mem_of_mem_filter hm)).1
  rw [yields, h m hne, yields]

omit [Host] in
theorem keys_perm_erase {d : Dir} {n : Str} (h : n ∈ d) : d.keys.Perm (n :: (d.erase n).keys) := by
  have hnew : (n :: (d.erase n).keys).Nodup :=
    List.nodup_cons.mpr ⟨fun hn => (AList.mem_erase.mp hn).1 rfl, AList.keys_nodup _⟩
  refine (List.perm_ext_iff_of_nodup d.keys_nodup hnew).mpr fun m => ?_
  rw [List.mem_cons, ← AList.mem_keys, ← AList.mem_keys, AList.mem_erase]
  by_cases hm : m = n
  · simp [hm, h]
  · simp [hm]

omit [Host] in
theorem keys_erase_of_notMem {d : Dir} {n : Str} (h : n ∉ d) : (d.erase n).keys = d.keys :=
  congrArg List.keys (List.kerase_of_notMem_keys h)

omit [Host] in
theorem keys_insert (d : Dir) (n : Str) (c : Bytes) :
    (d.insert n c).keys = n :: (d.erase n).keys := by
  rw [AList.keys_insert, AList.keys_erase]

theorem total_perm_others (limit : ℕ) (d : Dir) {n : Str} (hn : p.readable n = true) :
    (total p limit d).Perm (yields limit d n ++ others p limit d n) := by
  by_cases hmem : n ∈ d
  · have hperm := ((keys_perm_erase hmem).filter p.readable).flatMap_right (yields limit d)
    rwa [List.filter_cons_of_pos hn, List.flatMap_cons] at hperm
  · have hnil : yields limit d n = [] := by rw [yields, content_of_notMem hmem, recordsIn_nil]
    rw [hnil, others, keys_erase_of_notMem hmem]
    rfl

theorem total_insert {d : Dir} {n : Str} (hn : p.readable n = true) (c : Bytes) :
    total p limit (d.insert n c) = recordsIn limit c ++ others p limit d n := by
  rw [total, keys_insert, List.filter_cons_of_pos hn, List.flatMap_cons,
    others_congr d _ n fun m hm => by rw [content_insert, if_neg hm]]
  simp [yields]

theorem total_erase (d : Dir) (n : Str) : total p limit (d.erase n) = others p limit d n :=
  others_congr d _ n fun m hm => by rw [content_erase, if_neg hm]

theorem total_touch (p : LogPath) (limit : ℕ) (d : Dir) (n : Str) : (total p limit (touch d n)).Perm (total p limit d) := by
  unfold touch
  split_ifs with hmem
  · rfl
  by_cases hn : p.readable n = true
  · have hnil : yields limit d n = [] := by rw [yields, content_of_notMem hmem, recordsIn_nil]
    have hperm := total_perm_others limit d hn
    rw [hnil, List.nil_append] at hperm
    rw [total_insert hn, recordsIn_nil, List.nil_append]
    exact hperm.symm
  · rw [total, keys_insert, keys_erase_of_notMem hmem, List.filter_cons_of_neg hn, total]
    refine List.Perm.of_eq (List.flatMap_congr fun m hm => ?_)
    have hne : m ≠ n := fun h => hmem (h ▸ List.mem_of_mem_filter hm)
    rw [yields, content_insert, if_neg hne, yields]

/-! ### One append -/

omit [Host] in
theorem readable_name (p : LogPath) : p.readable p.name = true := by
  simp [LogPath.readable]

omit [Host] in
theorem readable_segment (p : LogPath) (t : Datetime) (k : ℕ) :
    p.readable (p.segment t k) = true := by
  simp [LogPath.readable, p.stamped_segment]

omit [Host] in
@[simp] theorem content_touch (d : Dir) (a b : Str) : content (touch d a) b = content d b := by
  unfold touch
  split_ifs with h
  · rfl
  · rw [content_insert]
    split_ifs with hb
    · rw [hb, content_of_notMem h]
    · rfl

omit [Host] in
theorem mem_touch {d : Dir} {a b : Str} (h : b ∈ d) : b ∈ touch d a := by
  unfold touch
  split_ifs
  · exact h
  · exact (AList.mem_insert d).mpr (.inr h)

theorem Quiet.touch {d : Dir} (h : Quiet p limit d) (n : Str) : Quiet p limit (touch d n) := by
  intro m hm
  rw [content_touch]
  exact h m hm

theorem Quiet.insert {d : Dir} (h : Quiet p limit d) {n : Str} {c : Bytes}
    (hc : raisesIn limit c = false) : Quiet p limit (d.insert n c) := by
  intro m hm
  rw [content_insert]
  split_ifs
  · exact hc
  · exact h m hm

/-- A rotation keeps every record. -/
theorem Rotated.total {s : EventStore} {d d' : Dir} {now : Datetime} (h : Rotated s d now d') :
    (total s.path limit d').Perm (total s.path limit d) := by
  cases h with
  | kept => rfl
  | @renamed k _ hfree _ =>
    have hseg := readable_segment s.path now k
    have hrest : (Trace.total s.path limit (d.erase s.path.name)).Perm
        (others s.path limit (d.erase s.path.name) (s.path.segment now k)) := by
      have hnil : yields limit (d.erase s.path.name) (s.path.segment now k) = [] := by
        rw [yields, content_of_notMem fun hmem => hfree (AList.mem_erase.mp hmem).2, recordsIn_nil]
      have hperm := total_perm_others limit (d.erase s.path.name) hseg
      rwa [hnil, List.nil_append] at hperm
    rw [total_insert hseg]
    rw [total_erase] at hrest
    exact (hrest.symm.append_left _).trans (total_perm_others limit d (readable_name s.path)).symm

theorem Rotated.quiet {s : EventStore} {d d' : Dir} {now : Datetime} (h : Rotated s d now d')
    (hquiet : Quiet s.path limit d) : Quiet s.path limit d' := by
  cases h with
  | kept => exact hquiet
  | renamed =>
    refine Quiet.insert (fun m hm => ?_) (hquiet _ (readable_name s.path))
    rw [content_erase]
    split_ifs
    · exact raisesIn_nil limit
    · exact hquiet m hm

/-- What an append must find for the reader to keep up: a confirmed line lands, and a line
that is torn does not start on a record that lacks its line break, nor does it make the
reader raise. -/
def Meets (limit : ℕ) (s : EventStore) (d : Dir) (event : Event) (now : Datetime) (ending : Ending) :
    Prop :=
  ∀ line bytes, lineOf event.payload = some line → Utf8.encode line = some bytes →
    let c := content (opened s d bytes now) s.path.name
    match ending with
    | .written n => bytes.take n = [] ∨
        recordsIn limit (unfinished NL c) = [] ∧ raisesIn limit (unfinished NL c ++ bytes.take n) = false
    | .done => Lands limit c bytes event.payload
    | _ => True

/-- What the caller was told is stored. -/
def confirmedBy (event : Event) (ok : Bool) : List StoredRecord := if ok then [event.record] else []

theorem append_total {s : EventStore} (hretain : s.retainSegments = none) {d : Dir} {event : Event}
    {now : Datetime} {ending : Ending} (hmeets : Meets limit s d event now ending)
    (hquiet : Quiet s.path limit d) :
    Quiet s.path limit (append s d event now ending).1 ∧
      (total s.path limit d ++ confirmedBy event (append s d event now ending).2).Subperm
        (total s.path limit (append s d event now ending).1) := by
  have happ := append_spec s d event now ending
  generalize append s d event now ending = r at happ
  have htouch := total_touch s.path limit d s.path.lock
  have hopened (bytes : Bytes) := opened_spec s hretain d bytes now
  have hperm (bytes : Bytes) : (total s.path limit (opened s d bytes now)).Perm (total s.path limit d) :=
    (hopened bytes).total.trans htouch
  have hquiet' (bytes : Bytes) : Quiet s.path limit (opened s d bytes now) :=
    (hopened bytes).quiet (hquiet.touch _)
  have hname (bytes : Bytes) := total_perm_others limit (opened s d bytes now) (readable_name s.path)
  cases happ with
  | refused => exact ⟨hquiet, by simp [confirmedBy, List.Subperm.refl]⟩
  | locked =>
    refine ⟨hquiet.touch _, ?_⟩
    simpa [confirmedBy] using htouch.symm.subperm
  | @rotated line bytes _ _ =>
    refine ⟨hquiet' bytes, ?_⟩
    simpa [confirmedBy] using (hperm bytes).symm.subperm
  | @torn line bytes n hline hbytes hending =>
    have hcut := hmeets line bytes hline hbytes
    rw [hending] at hcut
    obtain ⟨hsub, hraises⟩ := recordsIn_torn hcut
    refine ⟨(hquiet' bytes).insert (hraises (hquiet' bytes _ (readable_name s.path))), ?_⟩
    rw [total_insert (readable_name s.path)]
    have hstep :=
      (hsub.append_right (others s.path limit (opened s d bytes now) s.path.name)).subperm
    simpa [confirmedBy] using (((hperm bytes).symm.trans (hname bytes)).subperm).trans hstep
  | @confirmed line bytes hline hbytes hending =>
    have hlands := hmeets line bytes hline hbytes
    rw [hending] at hlands
    obtain ⟨hrecords, hraises⟩ := recordsIn_landed hline hbytes hlands
    refine ⟨(hquiet' bytes).insert (hraises.trans (hquiet' bytes _ (readable_name s.path))), ?_⟩
    rw [total_insert (readable_name s.path), hrecords]
    have hall := ((hperm bytes).symm.trans (hname bytes)).append_right [event.record]
    have hswap : (yields limit (opened s d bytes now) s.path.name ++
          others s.path limit (opened s d bytes now) s.path.name ++ [event.record]).Perm
        (yields limit (opened s d bytes now) s.path.name ++ [event.record] ++
          others s.path limit (opened s d bytes now) s.path.name) := by
      rw [List.append_assoc, List.append_assoc]
      exact List.perm_append_comm.append_left _
    exact (hall.trans hswap).subperm

/-! ### The order of the appends -/

/-- The segments an unbroken run of appends made, oldest first: the confirmed records stand
in them and in the active file, in order. Every number below a segment's is taken, so the
next segment of the same stamp has a greater one. -/
structure Chain (p : LogPath) (limit : ℕ) (d : Dir) (stored : List StoredRecord)
    (made : List (Datetime × ℕ)) : Prop where
  ascending : made.Pairwise fun a b => a.1 < b.1 ∨ a.1 = b.1 ∧ a.2 < b.2
  few : ∀ m ∈ made, m.2 < 10 ^ 6
  taken : ∀ m ∈ made, ∀ j ≤ m.2, p.segment m.1 j ∈ d
  held : stored.Sublist
    (made.flatMap (fun m => yields limit d (p.segment m.1 m.2)) ++ yields limit d p.name)

theorem Chain.nil (p : LogPath) (limit : ℕ) (d : Dir) : Chain p limit d [] [] :=
  ⟨List.Pairwise.nil, by simp, by simp, List.nil_sublist _⟩

theorem segments_congr {d d' : Dir} {made : List (Datetime × ℕ)}
    (h : ∀ m ∈ made, content d' (p.segment m.1 m.2) = content d (p.segment m.1 m.2)) :
    made.flatMap (fun m => yields limit d' (p.segment m.1 m.2)) =
      made.flatMap fun m => yields limit d (p.segment m.1 m.2) :=
  List.flatMap_congr fun m hm => by rw [yields, h m hm, yields]

/-- A step that leaves every file but the active one alone, and adds to that. -/
theorem Chain.frame {d d' : Dir} {stored new : List StoredRecord} {made : List (Datetime × ℕ)}
    (h : Chain p limit d stored made)
    (hframe : ∀ n ∈ d, n ≠ p.name → n ∈ d' ∧ content d' n = content d n)
    (hactive : (yields limit d p.name ++ new).Sublist (yields limit d' p.name)) :
    Chain p limit d' (stored ++ new) made := by
  refine ⟨h.ascending, h.few, fun m hm j hj => ?_, ?_⟩
  · exact (hframe _ (h.taken m hm j hj) (p.segment_ne_name m.1 j)).1
  · rw [segments_congr fun m hm =>
      (hframe _ (h.taken m hm m.2 le_rfl) (p.segment_ne_name m.1 m.2)).2]
    refine (h.held.append_right new).trans ?_
    rw [List.append_assoc]
    exact hactive.append_left _

theorem Chain.touch {d : Dir} {stored : List StoredRecord} {made : List (Datetime × ℕ)}
    (h : Chain p limit d stored made) (n : Str) : Chain p limit (touch d n) stored made := by
  have hsame : (yields limit d p.name ++ []).Sublist (yields limit (Trace.touch d n) p.name) := by
    simp [yields]
  have hstep := h.frame (fun m hm _ => ⟨mem_touch hm, content_touch d n m⟩) hsame
  rwa [List.append_nil] at hstep

/-- A rotation puts the active file behind the segments there are. -/
theorem Rotated.chain {s : EventStore} {d d' : Dir} {now : Datetime} (h : Rotated s d now d')
    {stored : List StoredRecord} {made : List (Datetime × ℕ)}
    (hchain : Chain s.path limit d stored made) (hclock : ∀ m ∈ made, m.1 ≤ now)
    (hroom : ∃ k < 10 ^ 6, s.path.segment now k ∉ d) :
    ∃ made', Chain s.path limit d' stored made' ∧ ∀ m ∈ made', m.1 ≤ now := by
  cases h with
  | kept => exact ⟨made, hchain, hclock⟩
  | @renamed k _ hfree htaken =>
    obtain ⟨k₀, hk₀, hfree₀⟩ := hroom
    have hk : k < 10 ^ 6 := by
      by_contra hbig
      exact hfree₀ (htaken k₀ (by omega))
    have hlast : ∀ m ∈ made, m.1 < now ∨ m.1 = now ∧ m.2 < k := by
      intro m hm
      refine (lt_or_eq_of_le (hclock m hm)).imp_right fun heq => ⟨heq, ?_⟩
      by_contra hle
      exact hfree (heq ▸ hchain.taken m hm k (by omega))
    have hmem {n : Str} (hn : n ∈ d) (hne : n ≠ s.path.name) :
        n ∈ (d.erase s.path.name).insert (s.path.segment now k) (content d s.path.name) :=
      (AList.mem_insert _).mpr (.inr (AList.mem_erase.mpr ⟨hne, hn⟩))
    refine ⟨made ++ [(now, k)], ⟨?_, ?_, ?_, ?_⟩, ?_⟩
    · rw [List.pairwise_append]
      refine ⟨hchain.ascending, List.pairwise_singleton _ _, fun m hm n hn => ?_⟩
      rw [List.mem_singleton.mp hn]
      exact hlast m hm
    · intro m hm
      rcases List.mem_append.mp hm with hm | hm
      · exact hchain.few m hm
      · rw [List.mem_singleton.mp hm]
        exact hk
    · intro m hm j hj
      rcases List.mem_append.mp hm with hm | hm
      · exact hmem (hchain.taken m hm j hj) (s.path.segment_ne_name m.1 j)
      · rw [List.mem_singleton.mp hm] at hj ⊢
        rcases lt_or_eq_of_le hj with hj | rfl
        · exact hmem (htaken j hj) (s.path.segment_ne_name now j)
        · exact (AList.mem_insert _).mpr (.inl rfl)
    · rw [List.flatMap_append, segments_congr fun m hm => ?_]
      · have hnew : s.path.name ≠ s.path.segment now k := (s.path.segment_ne_name now k).symm
        simpa [yields, hnew] using hchain.held
      · have hne : s.path.segment m.1 m.2 ≠ s.path.segment now k := fun heq =>
          hfree (heq ▸ hchain.taken m hm m.2 le_rfl)
        rw [content_insert, if_neg hne, content_erase, if_neg (s.path.segment_ne_name m.1 m.2)]
    · intro m hm
      rcases List.mem_append.mp hm with hm | hm
      · exact hclock m hm
      · rw [List.mem_singleton.mp hm]

/-- Fewer than a million segments have the stamp of this moment. -/
def Roomy (s : EventStore) (d : Dir) (now : Datetime) : Prop :=
  ∃ k < 10 ^ 6, s.path.segment now k ∉ touch d s.path.lock

theorem append_chain {s : EventStore} (hretain : s.retainSegments = none) {d : Dir} {event : Event}
    {now : Datetime} {ending : Ending} (hmeets : Meets limit s d event now ending)
    (hroom : Roomy s d now) {stored : List StoredRecord} {made : List (Datetime × ℕ)}
    (hchain : Chain s.path limit d stored made) (hclock : ∀ m ∈ made, m.1 ≤ now) :
    ∃ made', Chain s.path limit (append s d event now ending).1
        (stored ++ confirmedBy event (append s d event now ending).2) made' ∧
      ∀ m ∈ made', m.1 ≤ now := by
  have happ := append_spec s d event now ending
  generalize append s d event now ending = r at happ
  have hopened (bytes : Bytes) := (opened_spec s hretain d bytes now).chain
    (hchain.touch s.path.lock) hclock hroom
  have hframe (bytes c : Bytes) (n : Str) (hn : n ∈ opened s d bytes now) (hne : n ≠ s.path.name) :
      n ∈ (opened s d bytes now).insert s.path.name c ∧
        content ((opened s d bytes now).insert s.path.name c) n = content (opened s d bytes now) n :=
    ⟨(AList.mem_insert _).mpr (.inr hn), by rw [content_insert, if_neg hne]⟩
  cases happ with
  | refused => exact ⟨made, by simpa [confirmedBy] using hchain, hclock⟩
  | locked => exact ⟨made, by simpa [confirmedBy] using hchain.touch s.path.lock, hclock⟩
  | @rotated line bytes _ _ => simpa [confirmedBy] using hopened bytes
  | @torn line bytes n hline hbytes hending =>
    obtain ⟨made', hchain', hclock'⟩ := hopened bytes
    have hcut := hmeets line bytes hline hbytes
    rw [hending] at hcut
    refine ⟨made', hchain'.frame (hframe bytes _) ?_, hclock'⟩
    simpa [confirmedBy, yields] using (recordsIn_torn hcut).1
  | @confirmed line bytes hline hbytes hending =>
    obtain ⟨made', hchain', hclock'⟩ := hopened bytes
    have hlands := hmeets line bytes hline hbytes
    rw [hending] at hlands
    refine ⟨made', hchain'.frame (hframe bytes _) ?_, hclock'⟩
    simp [confirmedBy, yields, (recordsIn_landed hline hbytes hlands).1]

/-- In the order the files are read, the chain is read in its own. -/
theorem Chain.sublist {d : Dir} {stored : List StoredRecord} {made : List (Datetime × ℕ)}
    (h : Chain p limit d stored made) :
    stored.Sublist ((p.forwardOrder d.keys).flatMap (yields limit d)) := by
  have hlt : (made.map fun m => p.segment m.1 m.2).Pairwise (· < ·) := by
    rw [List.pairwise_map]
    exact h.ascending.imp_of_mem fun ha hb hab => p.segment_lt (h.few _ ha) (h.few _ hb) hab
  have hsub : (made.map fun m => p.segment m.1 m.2) ⊆
      d.keys.filter fun n => p.stamped n || p.legacy n := by
    intro n hn
    obtain ⟨m, hm, rfl⟩ := List.mem_map.mp hn
    rw [List.mem_filter, p.stamped_segment]
    exact ⟨h.taken m hm m.2 le_rfl, rfl⟩
  have hsorted := List.sublist_insertionSort' (hlt.imp fun hab => le_of_lt hab)
    (List.subperm_of_subset (hlt.imp fun hab => ne_of_lt hab) hsub)
  have hactive : (yields limit d p.name).Sublist
      ((d.keys.filter (· == p.name)).flatMap (yields limit d)) := by
    by_cases hmem : p.name ∈ d
    · have hone : [p.name].Sublist (d.keys.filter (· == p.name)) := by
        rw [List.singleton_sublist, List.mem_filter]
        exact ⟨hmem, by simp⟩
      simpa using hone.flatMap (yields limit d)
    · rw [yields, content_of_notMem hmem, recordsIn_nil]
      exact List.nil_sublist _
  rw [LogPath.forwardOrder, List.flatMap_append]
  have hsegments := hsorted.flatMap (yields limit d)
  rw [List.flatMap_map] at hsegments
  exact h.held.trans (hsegments.append hactive)

end

/-! ### A run of appends -/

structure Attempt where
  store : EventStore
  event : Event
  now : Datetime
  ending : Ending

/-- The directory after the appends, and the records of those that returned `True`. -/
def run : Dir → List Attempt → Dir × List StoredRecord
  | d, [] => (d, [])
  | d, a :: as =>
    let (d', ok) := append a.store d a.event a.now a.ending
    let (d'', stored) := run d' as
    (d'', confirmedBy a.event ok ++ stored)

/-- A condition on each append and the directory it finds. -/
def Along (P : Dir → Attempt → Prop) : Dir → List Attempt → Prop
  | _, [] => True
  | d, a :: as => P d a ∧ Along P (append a.store d a.event a.now a.ending).1 as

section
variable {p : LogPath} {limit : ℕ}

theorem run_total {as : List Attempt} {d : Dir}
    (hstore : ∀ a ∈ as, a.store.path = p ∧ a.store.retainSegments = none)
    (hmeets : Along (fun d a => Meets limit a.store d a.event a.now a.ending) d as)
    (hquiet : Quiet p limit d) :
    Quiet p limit (run d as).1 ∧
      (total p limit d ++ (run d as).2).Subperm (total p limit (run d as).1) := by
  induction as generalizing d with
  | nil => exact ⟨hquiet, by simp [run, List.Subperm.refl]⟩
  | cons a as ih =>
    rw [List.forall_mem_cons] at hstore
    obtain ⟨⟨rfl, hretain⟩, hrest⟩ := hstore
    obtain ⟨hstep, hkept⟩ := append_total hretain hmeets.1 hquiet
    obtain ⟨hend, hall⟩ := ih hrest hmeets.2 hstep
    refine ⟨hend, ?_⟩
    have hboth := (List.subperm_append_right
      (run (append a.store d a.event a.now a.ending).1 as).2).mpr hkept
    rw [List.append_assoc] at hboth
    exact hboth.trans hall

theorem run_chain {as : List Attempt} {d : Dir}
    (hstore : ∀ a ∈ as, a.store.path = p ∧ a.store.retainSegments = none)
    (hmeets : Along (fun d a => Meets limit a.store d a.event a.now a.ending) d as)
    (hroom : Along (fun d a => Roomy a.store d a.now) d as)
    (hclock : as.Pairwise fun a b => a.now ≤ b.now) {stored : List StoredRecord}
    {made : List (Datetime × ℕ)} (hchain : Chain p limit d stored made)
    (hmade : ∀ a ∈ as, ∀ m ∈ made, m.1 ≤ a.now) :
    ∃ made', Chain p limit (run d as).1 (stored ++ (run d as).2) made' := by
  induction as generalizing d stored made with
  | nil => exact ⟨made, by simpa [run] using hchain⟩
  | cons a as ih =>
    rw [List.forall_mem_cons] at hstore hmade
    rw [List.pairwise_cons] at hclock
    obtain ⟨⟨rfl, hretain⟩, hrest⟩ := hstore
    obtain ⟨made', hchain', hmade'⟩ :=
      append_chain hretain hmeets.1 hroom.1 hchain hmade.1
    have hlater : ∀ b ∈ as, ∀ m ∈ made', m.1 ≤ b.now := fun b hb m hm =>
      (hmade' m hm).trans (hclock.1 b hb)
    obtain ⟨made'', hend⟩ := ih hrest hmeets.2 hroom.2 hclock.2 hchain' hlater
    rw [List.append_assoc] at hend
    exact ⟨made'', hend⟩

/-- When each confirmed line lands and no torn one is written onto a record that lacks its
line break, the log yields what it yielded before and every confirmed record, these in the
order of the appends when the clock does not go back. -/
theorem append_durable {as : List Attempt} {d : Dir} {before : Scan}
    (hbefore : iterRecords p limit d = some before)
    (hstore : ∀ a ∈ as, a.store.path = p ∧ a.store.retainSegments = none)
    (hmeets : Along (fun d a => Meets limit a.store d a.event a.now a.ending) d as) :
    ∃ after, iterRecords p limit (run d as).1 = some after ∧
      (before.records ++ (run d as).2).Subperm after.records ∧
      ((as.Pairwise fun a b => a.now ≤ b.now) → Along (fun d a => Roomy a.store d a.now) d as →
        (run d as).2.Sublist after.records) := by
  obtain ⟨hquiet, hrecords⟩ := iterRecords_some hbefore
  obtain ⟨hend, hkept⟩ := run_total hstore hmeets hquiet
  obtain ⟨after, hafter, hyield⟩ := iterRecords_of_quiet hend
  refine ⟨after, hafter, ?_, fun hclock hroom => ?_⟩
  · rw [hrecords, hyield]
    have hstart := (forward_perm_total p limit d).append_right (run d as).2
    exact (hstart.subperm.trans hkept).trans (forward_perm_total p limit _).symm.subperm
  · obtain ⟨made, hchain⟩ := run_chain hstore hmeets hroom hclock (Chain.nil p limit d) (by simp)
    rw [hyield]
    exact hchain.sublist

end
end

/-- An append of `\x7b"schema_version":2\x7d` that returns `True`. -/
def recorded [Host] : Attempt where
  store := ⟨decisions, 52428800, none⟩
  event := ⟨[(txt "schema_version", .int 2)], by simp [Held, HeldItems]⟩
  now := newYear
  ending := .done

theorem recorded_lands [Host] {bytes : Bytes} {line : Str}
    (hline : lineOf recorded.event.payload = some line) (hbytes : Utf8.encode line = some bytes) :
    Lands 1024 [] bytes recorded.event.payload := by
  have htext : dumps (.obj [(txt "schema_version", .int 2)]) =
      some (txt "\x7b\"schema_version\":2\x7d") := by decide
  have hversion : supported (versionOf [(txt "schema_version", .int 2)]) = true := by decide
  obtain ⟨t, ht, -, -, rfl, -⟩ := encode_line hline hbytes
  obtain rfl := Option.some.inj (htext.symm.trans ht)
  exact ⟨by simp [unfinished], by decide, hversion⟩

/-- The first record of a log. -/
theorem append_durable_first : let : Host := Host.ascii
    (run ∅ [recorded]).2.length = 1 ∧
      ∃ after, iterRecords decisions 1024 (run ∅ [recorded]).1 = some after ∧
        ([] ++ (run ∅ [recorded]).2).Subperm after.records ∧
        (run ∅ [recorded]).2.Sublist after.records := by
  let : Host := Host.ascii
  have hempty : iterRecords decisions 1024 ∅ = some ⟨[], 0, 0⟩ := rfl
  have hroom : Roomy recorded.store ∅ recorded.now := ⟨0, by omega, by decide⟩
  have hmeets : Meets 1024 recorded.store ∅ recorded.event recorded.now recorded.ending := by
    intro line bytes hline hbytes
    have hnone : content (opened recorded.store ∅ bytes recorded.now) recorded.store.path.name =
        [] := by
      have hlook : (touch (∅ : Dir) recorded.store.path.lock).lookup recorded.store.path.name =
          none := by decide
      rw [opened, EventStore.rotateIfNeeded, hlook, content, hlook, Option.getD_none]
    simp only [recorded] at hnone ⊢
    rw [hnone]
    exact recorded_lands hline hbytes
  obtain ⟨after, hafter, hkept, horder⟩ :=
    append_durable hempty (by simp [recorded] : ∀ a ∈ [recorded], _) ⟨hmeets, trivial⟩
  exact ⟨by decide +kernel, after, hafter, hkept, horder (by simp) ⟨hroom, trivial⟩⟩

/-- An append onto a torn line returns `True` and the log then yields no record. -/
theorem torn_line_loses : let : Host := Host.ascii
    let torn : Dir := (∅ : Dir).insert decisions.name (Utf8.encodePass (txt "\x7b\"schema_version\":2"))
    (run torn [recorded]).2.length = 1 ∧
      ((iterRecords decisions (maxLineBytes none) (run torn [recorded]).1).map fun scan =>
        scan.records.length) = some 0 := by
  decide +kernel

end AskFable.Trace

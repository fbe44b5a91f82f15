import AskFable.General.Sorting
import AskFable.Trace.Durable

/-!
# Oldest first and newest first

`iter_records` sorts stamped segments and numbered generations together as texts, the other
direction sorts them apart and the generations by number. A generation is older than every
segment and `.2` older than `.1`, but the forward order puts segments first and `.1` before
`.2`. The two directions agree only while no such pair of files is there.
-/
namespace AskFable.Trace
open AskFable.Text AskFable.Python AskFable.Python.JsonText AskFable.Sorting

/-! ### The two scans -/

theorem Scan.of_reverse (readings : List Reading) :
    Scan.of readings.reverse = (Scan.of readings).map fun s => { s with records := s.records.reverse } := by
  unfold Scan.of
  simp only [List.any_reverse, List.filterMap_reverse, List.countP_reverse]
  split_ifs <;> rfl

section
variable [Host] {p : LogPath} {limit : ℕ}

/-- The lines of a file as they are read. -/
def readings (limit : ℕ) (bytes : Bytes) : List Reading := (linesForward limit bytes).map readLine

theorem iterRecords_eq (p : LogPath) (limit : ℕ) (d : Dir) :
    iterRecords p limit d =
      Scan.of ((p.forwardOrder d.keys).flatMap fun n => readings limit (content d n)) := rfl

theorem iterNewest_eq (p : LogPath) (limit : ℕ) (d : Dir) :
    iterNewest p limit d =
      Scan.of ((p.newestOrder d.keys).flatMap fun n => (readings limit (content d n)).reverse) := by
  unfold iterNewest readings
  simp only [linesBackwards_eq (show 0 < BACKWARD_BLOCK by decide), List.map_reverse]

/-- Files read in reverse order, each in reverse, give the records in reverse; files that
hold nothing may stand anywhere. -/
theorem newest_of_order {d : Dir} (q : Str → Bool) (hq : ∀ n, q n = false → content d n = [])
    (h : (p.newestOrder d.keys).filter q = ((p.forwardOrder d.keys).filter q).reverse) :
    iterNewest p limit d =
      (iterRecords p limit d).map fun s => { s with records := s.records.reverse } := by
  have hempty (n : Str) (hn : q n = false) : readings limit (content d n) = [] := by
    rw [readings, hq n hn, linesForward_eq]
    rfl
  have hreverse (n : Str) (hn : q n = false) : (readings limit (content d n)).reverse = [] := by
    rw [hempty n hn, List.reverse_nil]
  rw [iterNewest_eq, iterRecords_eq, ← Scan.of_reverse, flatMap_kept q _ hreverse, h,
    flatMap_kept q (p.forwardOrder d.keys) hempty, List.reverse_flatMap]
  rfl

end

/-! ### The names in the directory -/

/-- `decisions.jsonl.n`, a file an older version rotated to. -/
def numbered (n : ℕ) : Str := decisions.name ++ txt "." ++ natStr n

/-- A file the store can hold. -/
inductive StoreFile : Str → Prop
  | active : StoreFile decisions.name
  | lock : StoreFile decisions.lock
  | segment (t : Datetime) (k : ℕ) : StoreFile (decisions.segment t k)
  | generation (n : ℕ) : StoreFile (numbered n)

theorem numbered_eq (n : ℕ) : numbered n = txt "decisions." ++ (txt "jsonl." ++ natStr n) := by
  have htext : decisions.name ++ txt "." = txt "decisions." ++ txt "jsonl." := by decide
  rw [numbered, htext, List.append_assoc]

theorem stamped_numbered (n : ℕ) : decisions.stamped (numbered n) = false := by
  have hpre : decisions.stem ++ txt "." = txt "decisions." := by decide
  rw [LogPath.stamped, LogPath.globs, hpre, numbered_eq, List.drop_left, Bool.and_eq_false_iff]
  refine .inr (Bool.eq_false_iff.mpr fun h => ?_)
  -- the name ends with a digit, not with the suffix
  rw [List.isSuffixOf_iff_suffix] at h
  obtain ⟨x, hx⟩ := h
  have hlast := congrArg List.getLast? hx
  have hsuffix : decisions.suffix = txt ".json" ++ [cp 'l'] := by decide
  rw [hsuffix, ← List.append_assoc, List.getLast?_concat, List.getLast?_append] at hlast
  obtain ⟨c, hc⟩ := Option.ne_none_iff_exists'.mp (mt List.getLast?_eq_none_iff.mp (natStr_ne_nil n))
  rw [hc, Option.some_or] at hlast
  have hdigit := natStr_digits n c (List.mem_of_getLast? hc)
  rw [← Option.some.inj hlast] at hdigit
  exact absurd hdigit (by decide)

theorem legacy_numbered (n : ℕ) : decisions.legacy (numbered n) = true := by
  have hglob := LogPath.globs_append (decisions.name ++ txt ".") (natStr n) []
  rw [List.append_nil] at hglob
  rw [LogPath.legacy, stamped_numbered, numbered, hglob]
  rfl

theorem generation_numbered (n : ℕ) : decisions.generation (numbered n) = (n, []) := by
  have htail : (numbered n).drop (decisions.name.length + 1) = natStr n := by
    have hlen : decisions.name.length + 1 = (decisions.name ++ txt ".").length := by simp [txt]
    rw [numbered, hlen, List.drop_left]
  rw [LogPath.generation, htail, if_pos ⟨natStr_ne_nil n, List.all_eq_true.mpr (natStr_digits n)⟩, natOfDigits_natStr]

theorem older_numbered (m n : ℕ) : decisions.older (numbered m) (numbered n) ↔ m ≤ n := by
  rw [LogPath.older, generation_numbered, generation_numbered, Prod.Lex.toLex_le_toLex]
  simp only [le_refl, and_true]
  omega

theorem numbered_injective : Function.Injective numbered := fun _ _ h =>
  natStr_injective (List.append_cancel_left h)

theorem numbered_lt_iff (m n : ℕ) : numbered m < numbered n ↔ natStr m < natStr n := by
  rw [numbered, numbered, FixedWidth.append_lt_append_iff rfl]
  simp

/-- Every segment sorts before every numbered file. -/
theorem segment_lt_numbered (t : Datetime) (k n : ℕ) : decisions.segment t k < numbered n := by
  have hpre : decisions.stem ++ txt "." = txt "decisions." := by decide
  have hyear : pad 4 t.year ≠ [] := by
    intro hnil
    have hlen := length_pad (w := 4) (n := t.year) (by omega) t.written.1
    simp [hnil] at hlen
  obtain ⟨c, rest, hc⟩ := List.exists_cons_of_ne_nil hyear
  have hdigit : isDigit c = true := pad_digits 4 t.year c (hc ▸ List.mem_cons_self)
  simp only [isDigit, Bool.and_eq_true, decide_eq_true_eq] at hdigit
  have hlt : c < cp 'j' := by
    rw [Fin.lt_def]
    exact Nat.lt_of_le_of_lt hdigit.2 (by decide)
  unfold LogPath.segment Datetime.stamp
  rw [hpre, numbered_eq, hc]
  simp only [List.append_assoc, List.cons_append]
  exact List.append_left_lt (List.Lex.rel hlt)

theorem stamped_lock : decisions.stamped decisions.lock = false := by decide

theorem name_ne_lock : decisions.name ≠ decisions.lock := by decide

theorem StoreFile.of_stamped {n : Str} (h : StoreFile n) (hstamped : decisions.stamped n = true) :
    ∃ t k, n = decisions.segment t k := by
  cases h with
  | active => simp [LogPath.stamped_name] at hstamped
  | lock => simp [stamped_lock] at hstamped
  | segment t k => exact ⟨t, k, rfl⟩
  | generation n => simp [stamped_numbered] at hstamped

theorem StoreFile.of_legacy {n : Str} (h : StoreFile n) (hlegacy : decisions.legacy n = true)
    (hlock : n ≠ decisions.lock) : ∃ k, n = numbered k := by
  cases h with
  | active => simp [LogPath.legacy_name] at hlegacy
  | lock => exact absurd rfl hlock
  | segment t k => simp [LogPath.legacy, LogPath.stamped_segment] at hlegacy
  | generation n => exact ⟨n, rfl⟩

/-- No numbered file stands next to a segment, and of two numbered files the greater number
is the smaller text. -/
def Agrees (names : List Str) : Prop :=
  (∀ n, numbered n ∉ names) ∨
    (∀ t k, decisions.segment t k ∉ names) ∧
      ∀ m n, m < n → numbered m ∈ names → numbered n ∈ names → natStr n < natStr m

section
variable {names : List Str}

/-- Every file but the lock. -/
def notLock (n : Str) : Bool := n != decisions.lock

theorem filter_active : (names.filter (· == decisions.name)).filter notLock =
    names.filter (· == decisions.name) := by
  rw [List.filter_filter]
  refine List.filter_congr fun n _ => ?_
  by_cases hn : n = decisions.name
  · simp [hn, notLock, name_ne_lock]
  · simp [hn]

/-- Without numbered files the segments alone are sorted, in both directions. -/
theorem order_of_segments (hfiles : ∀ n ∈ names, StoreFile n) (h : ∀ n, numbered n ∉ names) :
    (decisions.newestOrder names).filter notLock =
      ((decisions.forwardOrder names).filter notLock).reverse := by
  have hlegacy : ∀ n ∈ names, decisions.legacy n = true → notLock n = false := by
    intro n hn hl
    by_contra hlock
    obtain ⟨k, rfl⟩ := (hfiles n hn).of_legacy hl (by simpa [notLock] using hlock)
    exact h k hn
  have hstamped : ∀ n, decisions.stamped n = true → notLock n = true := by
    intro n hn
    by_contra hlock
    simp only [notLock, bne_iff_ne, ne_eq, not_not] at hlock
    rw [hlock, stamped_lock] at hn
    simp at hn
  have hrotated : (names.filter fun n => decisions.stamped n || decisions.legacy n).filter notLock =
      names.filter decisions.stamped := by
    rw [List.filter_filter]
    refine List.filter_congr fun n hn => ?_
    by_cases hs : decisions.stamped n = true
    · simp [hs, hstamped n hs]
    · by_cases hl : decisions.legacy n = true
      · simp [hs, hlegacy n hn hl]
      · simp [hs, hl]
  have hsegments : ((names.filter decisions.stamped).insertionSort (· ≤ ·)).filter notLock =
      (names.filter decisions.stamped).insertionSort (· ≤ ·) := by
    refine List.filter_eq_self.mpr fun n hn => ?_
    exact hstamped n (List.mem_filter.mp ((List.mem_insertionSort _).mp hn)).2
  have hnone : ((names.filter decisions.legacy).insertionSort decisions.older).filter notLock = [] := by
    refine List.filter_eq_nil_iff.mpr fun n hn => ?_
    obtain ⟨hmem, hl⟩ := List.mem_filter.mp ((List.mem_insertionSort _).mp hn)
    simp [hlegacy n hmem hl]
  rw [LogPath.newestOrder, LogPath.forwardOrder, List.filter_append, List.filter_append,
    List.filter_append, filter_active, List.filter_reverse, hsegments, hnone, filter_insertionSort,
    hrotated, List.reverse_append, List.append_nil]
  have hone : (names.filter (· == decisions.name)).reverse = names.filter (· == decisions.name) := by
    rw [List.filter_beq, List.reverse_replicate]
  rw [hone]

/-- Without segments the numbered files are sorted by number and by text, the other way. -/
theorem order_of_numbered (hnodup : names.Nodup) (hfiles : ∀ n ∈ names, StoreFile n)
    (hsegment : ∀ t k, decisions.segment t k ∉ names)
    (htext : ∀ m n, m < n → numbered m ∈ names → numbered n ∈ names → natStr n < natStr m) :
    (decisions.newestOrder names).filter notLock =
      ((decisions.forwardOrder names).filter notLock).reverse := by
  have hstamped : ∀ n ∈ names, decisions.stamped n = false := by
    intro n hn
    by_contra hs
    obtain ⟨t, k, rfl⟩ := (hfiles n hn).of_stamped (by simpa using hs)
    exact hsegment t k hn
  have hnil : names.filter decisions.stamped = [] :=
    List.filter_eq_nil_iff.mpr fun n hn => by simp [hstamped n hn]
  have hrotated : (names.filter fun n => decisions.stamped n || decisions.legacy n) =
      names.filter decisions.legacy :=
    List.filter_congr fun n hn => by simp [hstamped n hn]
  have hlist : ((names.filter decisions.legacy).insertionSort decisions.older).filter notLock =
      (((names.filter decisions.legacy).filter notLock).insertionSort (· ≤ ·)).reverse := by
    have hperm := List.perm_insertionSort decisions.older (names.filter decisions.legacy)
    have hold := (List.pairwise_insertionSort decisions.older (names.filter decisions.legacy)).and
      (hperm.nodup_iff.mpr (hnodup.filter _))
    have hdescending : (((names.filter decisions.legacy).insertionSort decisions.older).filter
        notLock).Pairwise fun a b => b ≤ a := by
      refine (hold.filter notLock).imp_of_mem fun {a b} ha hb hab => ?_
      have hkind {c : Str} (hc : c ∈ ((names.filter decisions.legacy).insertionSort
          decisions.older).filter notLock) : ∃ k, c = numbered k ∧ numbered k ∈ names := by
        obtain ⟨hsorted, hlock⟩ := List.mem_filter.mp hc
        obtain ⟨hmem, hl⟩ := List.mem_filter.mp ((List.mem_insertionSort _).mp hsorted)
        obtain ⟨k, rfl⟩ := (hfiles c hmem).of_legacy hl (by simpa [notLock] using hlock)
        exact ⟨k, rfl, hmem⟩
      obtain ⟨m, rfl, hm⟩ := hkind ha
      obtain ⟨n, rfl, hn⟩ := hkind hb
      have hle : m ≤ n := by simpa [older_numbered] using hab.1
      have hlt : m < n := lt_of_le_of_ne hle fun heq => hab.2 (heq ▸ rfl)
      exact le_of_lt ((numbered_lt_iff n m).mpr (htext m n hlt hm hn))
    refine List.Perm.eq_of_pairwise' (r := fun a b => b ≤ a) hdescending
      (List.pairwise_reverse.mpr (List.pairwise_insertionSort _ _)) ?_
    exact (hperm.filter notLock).trans ((List.perm_insertionSort _ _).symm.trans
      (List.reverse_perm _).symm)
  have hone : (names.filter (· == decisions.name)).reverse = names.filter (· == decisions.name) := by
    rw [List.filter_beq, List.reverse_replicate]
  rw [LogPath.newestOrder, LogPath.forwardOrder, List.filter_append, List.filter_append,
    List.filter_append, filter_active, hnil, hrotated, filter_insertionSort, hlist,
    List.reverse_append, hone]
  simp

theorem forwardOrder_nodup (hnodup : names.Nodup) : (decisions.forwardOrder names).Nodup :=
  (decisions.forwardOrder_perm names).nodup_iff.mpr (hnodup.filter _)

theorem newestOrder_nodup (hnodup : names.Nodup) : (decisions.newestOrder names).Nodup := by
  have hsegments := (List.perm_insertionSort (· ≤ ·) (names.filter decisions.stamped)).nodup_iff.mpr
    (hnodup.filter _)
  have hold := (List.perm_insertionSort decisions.older (names.filter decisions.legacy)).nodup_iff.mpr
    (hnodup.filter _)
  rw [LogPath.newestOrder, List.nodup_append, List.nodup_append, List.nodup_reverse]
  refine ⟨⟨hnodup.filter _, hsegments, ?_⟩, hold, ?_⟩
  · rintro n hn m hm rfl
    simp only [List.mem_filter, beq_iff_eq, List.mem_reverse, List.mem_insertionSort] at hn hm
    rw [hn.2, LogPath.stamped_name] at hm
    simp at hm
  · rintro n hn m hm rfl
    simp only [List.mem_append, List.mem_filter, beq_iff_eq, List.mem_reverse,
      List.mem_insertionSort, LogPath.legacy, Bool.and_eq_true, Bool.not_eq_true'] at hn hm
    rcases hn with ⟨-, rfl⟩ | ⟨-, hs⟩
    · have hlegacy := LogPath.legacy_name decisions
      rw [LogPath.legacy, hm.2.1, LogPath.stamped_name] at hlegacy
      simp at hlegacy
    · rw [hs] at hm
      simp at hm

/-! ### Two files the directions order alike -/

/-- The files of these names with the given contents. -/
def filled (names : List Str) (hnodup : names.Nodup) (c : Str → Bytes) : Dir :=
  ⟨names.map fun n => ⟨n, c n⟩, by
    rw [List.NodupKeys, List.keys, List.map_map]
    simpa [Function.comp_def] using hnodup⟩

theorem keys_filled (hnodup : names.Nodup) (c : Str → Bytes) :
    (filled names hnodup c).keys = names := by
  rw [filled, AList.keys, List.keys, List.map_map]
  simp [Function.comp_def]

theorem content_filled (hnodup : names.Nodup) {c : Str → Bytes} (hc : ∀ n, n ∉ names → c n = [])
    (n : Str) : content (filled names hnodup c) n = c n := by
  by_cases hn : n ∈ names
  · have hentry : (⟨n, c n⟩ : Sigma fun _ : Str => Bytes) ∈ (filled names hnodup c).entries :=
      List.mem_map.mpr ⟨n, hn, rfl⟩
    have hlook : (filled names hnodup c).lookup n = some (c n) := AList.mem_lookup_iff.mpr hentry
    rw [content, hlook, Option.getD_some]
  · have hnone : n ∉ (filled names hnodup c).keys := by rwa [keys_filled]
    rw [content_of_notMem hnone, hc n hn]

variable [Host]

theorem readings_line {e : Event} {line : Str} {bytes : Bytes} {limit : ℕ}
    (hline : lineOf e.payload = some line) (hbytes : Utf8.encode line = some bytes)
    (hlen : bytes.length ≤ limit + 1) (hversion : supported (versionOf e.payload) = true) :
    readings limit bytes = [.record e.record] := by
  have hread := readLine_written hline hbytes (w := []) (by simp) hversion
  obtain ⟨t, -, -, -, rfl, hunbroken⟩ := encode_line hline hbytes
  rw [List.length_append, List.length_singleton, Nat.add_le_add_iff_right] at hlen
  rw [List.nil_append] at hread
  rw [readings, linesForward_eq, Lines.lines_ended hunbroken, Lines.lines]
  simp [fits_ended, hlen, hread]

/-- `\x7b\x7d`, a record of version 1. -/
def bare : Event := ⟨[], by simp [Held, HeldItems]⟩

/-- `\x7b"n":1\x7d`. -/
def marked : Event := ⟨[(txt "n", .int 1)], by simp [Held, HeldItems]⟩

theorem readings_bare {limit : ℕ} (hlimit : 1024 ≤ limit) :
    readings limit (Utf8.encodePass (txt "\x7b\x7d\n")) = [.record bare.record] := by
  have hline : lineOf [] = some (txt "\x7b\x7d\n") := by
    have hdepth : depth (.obj []) ≤ Host.nestLimit := Host.nest_pos
    rw [lineOf, if_pos hdepth]
    decide
  refine readings_line (e := bare) hline (by rfl) ?_ (by rfl)
  have hlen : (Utf8.encodePass (txt "\x7b\x7d\n")).length = 3 := by decide
  omega

theorem readings_marked {limit : ℕ} (hlimit : 1024 ≤ limit) :
    readings limit (Utf8.encodePass (txt "\x7b\"n\":1\x7d\n")) = [.record marked.record] := by
  have hline : lineOf [(txt "n", .int 1)] = some (txt "\x7b\"n\":1\x7d\n") := by
    have hdepth : depth (.obj [(txt "n", .int 1)]) ≤ Host.nestLimit := Host.nest_pos
    rw [lineOf, if_pos hdepth]
    decide
  refine readings_line (e := marked) hline (by rfl) ?_ (by rfl)
  have hlen : (Utf8.encodePass (txt "\x7b\"n\":1\x7d\n")).length = 8 := by decide
  omega

/-- Where both directions read one file before another, some contents come out of order. -/
theorem not_reversed_of_pair (hnodup : names.Nodup) {a b : Str} (ha : a ∈ names) (hb : b ∈ names)
    (hne : a ≠ b) (halock : a ≠ decisions.lock) (hblock : b ≠ decisions.lock)
    (hforward : [a, b].Sublist (decisions.forwardOrder names))
    (hnewest : [a, b].Sublist (decisions.newestOrder names)) {limit : ℕ} (hlimit : 1024 ≤ limit) :
    ∃ d : Dir, d.keys = names ∧ content d decisions.lock = [] ∧
      (iterNewest decisions limit d).map Scan.records ≠
        (iterRecords decisions limit d).map fun s => s.records.reverse := by
  let c (n : Str) : Bytes := if n = a then Utf8.encodePass (txt "\x7b\x7d\n")
    else if n = b then Utf8.encodePass (txt "\x7b\"n\":1\x7d\n") else []
  have hoff : ∀ n, n ∉ names → c n = [] := by
    intro n hn
    have hna : n ≠ a := fun h => hn (h ▸ ha)
    have hnb : n ≠ b := fun h => hn (h ▸ hb)
    simp [c, hna, hnb]
  have hread_a : readings limit (c a) = [.record bare.record] := by
    simpa [c] using readings_bare hlimit
  have hread_b : readings limit (c b) = [.record marked.record] := by
    simpa [c, hne.symm] using readings_marked hlimit
  have hread (n : Str) (hna : n ≠ a) (hnb : n ≠ b) : readings limit (c n) = [] := by
    simp [c, hna, hnb, readings, linesForward_eq, Lines.lines]
  refine ⟨filled names hnodup c, keys_filled hnodup c, ?_, ?_⟩
  · rw [content_filled hnodup hoff]
    simp [c, halock.symm, hblock.symm]
  · rw [iterNewest_eq, iterRecords_eq, keys_filled]
    simp only [content_filled hnodup hoff]
    have hboth : (decisions.forwardOrder names).flatMap (fun n => readings limit (c n)) =
        [.record bare.record, .record marked.record] := by
      rw [flatMap_pair (forwardOrder_nodup hnodup) hforward hread, hread_a, hread_b]
      rfl
    have hnewer : (decisions.newestOrder names).flatMap (fun n => (readings limit (c n)).reverse) =
        [.record bare.record, .record marked.record] := by
      rw [flatMap_pair (newestOrder_nodup hnodup) hnewest fun n hna hnb => by
        rw [hread n hna hnb, List.reverse_nil], hread_a, hread_b]
      rfl
    rw [hboth, hnewer]
    simp [Scan.of, Reading.isRaised, Reading.record?, bare, marked, Event.record]

omit [Host] in
theorem numbered_ne_lock (n : ℕ) : numbered n ≠ decisions.lock := by
  intro h
  have hgeneration := generation_numbered n
  have hlock : (decisions.generation decisions.lock).2 ≠ [] := by decide
  rw [← h, hgeneration] at hlock
  exact hlock rfl

omit [Host] in
theorem le_maxLineBytes (setting : Option ℤ) : 1024 ≤ maxLineBytes setting := by
  unfold maxLineBytes
  omega

omit [Host] in
/-- Of two rotated files the smaller name is read first. -/
theorem forward_pair {a b : Str} (ha : a ∈ names) (hb : b ∈ names)
    (hra : (decisions.stamped a || decisions.legacy a) = true)
    (hrb : (decisions.stamped b || decisions.legacy b) = true) (hlt : a < b) :
    [a, b].Sublist (decisions.forwardOrder names) := by
  have hsorted := pair_sublist (List.pairwise_insertionSort (· ≤ ·)
    (names.filter fun n => decisions.stamped n || decisions.legacy n))
    ((List.mem_insertionSort _).mpr (List.mem_filter.mpr ⟨ha, hra⟩))
    ((List.mem_insertionSort _).mpr (List.mem_filter.mpr ⟨hb, hrb⟩)) (ne_of_lt hlt) (not_le_of_gt hlt)
  exact hsorted.trans (List.sublist_append_left _ _)

/-- Reading newest first reverses reading oldest first, whatever the files hold, exactly
when no two files are ordered the same way by both. -/
theorem newest_reverses_iff (setting : Option ℤ) (hnodup : names.Nodup)
    (hfiles : ∀ n ∈ names, StoreFile n) :
    (∀ d : Dir, d.keys = names → content d decisions.lock = [] →
      (iterNewest decisions (maxLineBytes setting) d).map Scan.records =
        (iterRecords decisions (maxLineBytes setting) d).map fun s => s.records.reverse) ↔
      Agrees names := by
  have hlimit := le_maxLineBytes setting
  refine ⟨fun h => ?_, fun h d hkeys hlock => ?_⟩
  · by_contra hnot
    simp only [Agrees, not_or, not_and_or, not_forall, not_not] at hnot
    obtain ⟨⟨n, hn⟩, hpair⟩ := hnot
    rcases hpair with ⟨t, k, hsegment⟩ | ⟨m, k, hmk, hm, hk, htext⟩
    · have hlt := segment_lt_numbered t k n
      have hsegment_lock : decisions.segment t k ≠ decisions.lock := by
        intro heq
        have hs := decisions.stamped_segment t k
        rw [heq, stamped_lock] at hs
        simp at hs
      have hfirst : [decisions.segment t k].Sublist
          ((names.filter decisions.stamped).insertionSort (· ≤ ·)).reverse := by
        rw [List.singleton_sublist, List.mem_reverse, List.mem_insertionSort, List.mem_filter]
        exact ⟨hsegment, decisions.stamped_segment t k⟩
      have hsecond : [numbered n].Sublist
          ((names.filter decisions.legacy).insertionSort decisions.older) := by
        rw [List.singleton_sublist, List.mem_insertionSort, List.mem_filter]
        exact ⟨hn, legacy_numbered n⟩
      have hnewest : [decisions.segment t k, numbered n].Sublist (decisions.newestOrder names) :=
        (hfirst.trans (List.sublist_append_right _ _)).append hsecond
      obtain ⟨d, hkeys, hlock, hdiffer⟩ := not_reversed_of_pair hnodup hsegment hn (ne_of_lt hlt)
        hsegment_lock (numbered_ne_lock n)
        (forward_pair hsegment hn (by simp [LogPath.stamped_segment]) (by simp [legacy_numbered]) hlt)
        hnewest hlimit
      exact hdiffer (h d hkeys hlock)
    · have hne : numbered m ≠ numbered k := fun heq => hmk.ne (numbered_injective heq)
      have hlt : numbered m < numbered k := by
        refine lt_of_le_of_ne (le_of_not_gt fun hgt => htext ?_) hne
        exact (numbered_lt_iff k m).mp hgt
      have hsorted := pair_sublist (List.pairwise_insertionSort decisions.older
        (names.filter decisions.legacy))
        ((List.mem_insertionSort _).mpr (List.mem_filter.mpr ⟨hm, legacy_numbered m⟩))
        ((List.mem_insertionSort _).mpr (List.mem_filter.mpr ⟨hk, legacy_numbered k⟩)) hne
        (by rw [older_numbered]; omega)
      obtain ⟨d, hkeys, hlock, hdiffer⟩ := not_reversed_of_pair hnodup hm hk hne
        (numbered_ne_lock m) (numbered_ne_lock k)
        (forward_pair hm hk (by simp [legacy_numbered]) (by simp [legacy_numbered]) hlt)
        (hsorted.trans (List.sublist_append_right _ _)) hlimit
      exact hdiffer (h d hkeys hlock)
  · have horder : (decisions.newestOrder d.keys).filter notLock =
        ((decisions.forwardOrder d.keys).filter notLock).reverse := by
      rw [hkeys]
      rcases h with hnone | ⟨hsegment, htext⟩
      · exact order_of_segments hfiles hnone
      · exact order_of_numbered hnodup hfiles hsegment htext
    have hempty : ∀ n, notLock n = false → content d n = [] := by
      intro n hn
      simp only [notLock, bne_eq_false_iff_eq] at hn
      rw [hn, hlock]
    rw [newest_of_order notLock hempty horder, Option.map_map]
    rfl

end

/-- A store that never rotated. -/
theorem newest_reverses_iff_active : let : Host := Host.ascii
    (∀ d : Dir, d.keys = [decisions.name, decisions.lock] → content d decisions.lock = [] →
      (iterNewest decisions (maxLineBytes none) d).map Scan.records =
        (iterRecords decisions (maxLineBytes none) d).map fun s => s.records.reverse) ↔
      Agrees [decisions.name, decisions.lock] := by
  let : Host := Host.ascii
  have hfiles : ∀ n ∈ [decisions.name, decisions.lock], StoreFile n := by
    intro n hn
    simp only [List.mem_cons, List.not_mem_nil, or_false] at hn
    rcases hn with rfl | rfl
    · exact .active
    · exact .lock
  exact newest_reverses_iff none (by decide) hfiles

/-- Of two numbered files both directions read `.1` first. -/
theorem numbered_read_alike : let : Host := Host.ascii
    let d : Dir := ((∅ : Dir).insert (numbered 2) (Utf8.encodePass (txt "\x7b\x7d\n"))).insert
      (numbered 1) (Utf8.encodePass (txt "\x7b\"n\":1\x7d\n"))
    ((iterRecords decisions (maxLineBytes none) d).map fun s =>
        s.records.map fun r => r.payload.length) = some [1, 0] ∧
      ((iterNewest decisions (maxLineBytes none) d).map fun s =>
        s.records.map fun r => r.payload.length) = some [1, 0] := by
  decide +kernel

end AskFable.Trace

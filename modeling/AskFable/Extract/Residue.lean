import AskFable.Extract.RoundTrip

/-!
# What the prose still holds

The prose is the text without the blocks that counted. A block is the same wherever it
stands, and behind an opening line that is never closed there is none. So a scan of the
prose finds the blocks that were left, unless cutting lets an opening line arise.
-/
namespace AskFable.Extract
open AskFable.Text AskFable.Python AskFable.Python.JsonText AskFable.Regex AskFable.Fallible

/-! ### A block by itself -/

theorem closing_self {s rest : Str} (h : closing s = some rest) :
    ∃ w, s = w ++ rest ∧ w.getLast? = some (cp '`') ∧ ∀ x, closing (w ++ x) = some x := by
  unfold closing at h
  dsimp only at h
  split_ifs at h with hpre
  obtain ⟨r, hr⟩ := List.isPrefixOf_iff_prefix.mp hpre
  rw [← hr, List.drop_left] at h
  obtain rfl := Option.some.inj h
  refine ⟨s.takeWhile isBlank ++ TICKS, ?_, ?_, fun x => ?_⟩
  · rw [List.append_assoc, hr, List.takeWhile_append_dropWhile]
  · simp [List.getLast?_append, show TICKS.getLast? = some (cp '`') by decide]
  · have hdrop : (s.takeWhile isBlank ++ TICKS ++ x).dropWhile isBlank = TICKS ++ x := by
      rw [List.append_assoc, List.dropWhile_append_of_pos fun c hc => List.mem_takeWhile_imp hc]
      exact List.dropWhile_cons_of_neg (by decide)
    have hself : TICKS.isPrefixOf (TICKS ++ x) = true :=
      List.isPrefixOf_iff_prefix.mpr (List.prefix_append _ _)
    simp only [closing, hdrop, hself, if_true, List.drop_left]

/-- A body that has not begun at a line start ends in a later line. -/
theorem newline_of_bodyFrom {s : Str} {p : Str × Str} (h : bodyFrom false s = some p) :
    cp '\n' ∈ s := by
  induction s generalizing p with
  | nil => simp [bodyFrom] at h
  | cons c s ih =>
    by_cases hc : c = cp '\n'
    · exact hc ▸ List.mem_cons_self
    · have hc' : (c == cp '\n') = false := by simpa using hc
      rw [bodyFrom, hc'] at h
      obtain ⟨q, hq, -⟩ := Option.map_eq_some_iff.mp h
      exact List.mem_cons_of_mem c (ih hq)

theorem bodyFrom_self {start : Bool} {s : Str} {p : Str × Str} (h : bodyFrom start s = some p) :
    ∃ w, s = w ++ p.2 ∧ w.getLast? = some (cp '`') ∧
      ∀ x, bodyFrom start (w ++ x) = some (p.1, x) := by
  induction s generalizing start p with
  | nil => simp [bodyFrom] at h
  | cons c s ih =>
    rw [bodyFrom] at h
    cases hc : (if start then closing (c :: s) else none) with
    | some rest =>
      rw [hc] at h
      obtain rfl := Option.some.inj h
      split_ifs at hc with hstart
      obtain ⟨w, hw, hlast, hself⟩ := closing_self hc
      refine ⟨w, hw, hlast, fun x => ?_⟩
      cases w with
      | nil => simp at hlast
      | cons d w =>
        have hd := hself x
        rw [List.cons_append] at hd
        rw [List.cons_append, bodyFrom, if_pos hstart, hd]
    | none =>
      rw [hc] at h
      obtain ⟨q, hq, rfl⟩ := Option.map_eq_some_iff.mp h
      obtain ⟨w, rfl, hlast, hself⟩ := ih hq
      have hnewline : cp '\n' ∈ c :: w := by
        by_cases hn : c = cp '\n'
        · exact hn ▸ List.mem_cons_self
        · have hn' : (c == cp '\n') = false := by simpa using hn
          have hbody := hself []
          rw [hn', List.append_nil] at hbody
          exact List.mem_cons_of_mem c (newline_of_bodyFrom hbody)
      refine ⟨c :: w, rfl, by simp [List.getLast?_cons, hlast], fun x => ?_⟩
      -- whether this line closes the body is decided before what follows the body
      have hopen : (if start then closing (c :: (w ++ x)) else none) = none := by
        split_ifs at hc ⊢
        · rw [← List.cons_append, closing_append hnewline, Option.map_eq_none_iff] at hc
          rw [← List.cons_append, closing_append hnewline, hc, Option.map_none]
        · rfl
      rw [List.cons_append, bodyFrom, hopen, hself x, Option.map_some]

/-- An opening line up to its line break, and what follows. -/
theorem opening_line {s : Str} {o : Str × Str} (h : opening s = some o) :
    ∃ u, s = u ++ cp '\n' :: o.2 ∧ cp '\n' ∉ u := by
  have hend {r rest : Str} (hr : lineEnd r = some rest) :
      ∃ v, r = v ++ cp '\n' :: rest ∧ cp '\n' ∉ v := by
    cases r with
    | nil => simp [lineEnd] at hr
    | cons c r =>
      rw [lineEnd.eq_def] at hr
      dsimp only at hr
      split_ifs at hr with hn hcr
      · exact ⟨[], by rw [hn, Option.some.inj hr]; rfl, by simp⟩
      · cases r with
        | nil => simp at hr
        | cons d r =>
          simp only at hr
          split_ifs at hr with hd
          exact ⟨[cp '\r'], by rw [hcr, hd, Option.some.inj hr]; rfl, by decide⟩
  have hplain {p : Cp → Bool} (hp : p (cp '\n') = false) (r : Str) : cp '\n' ∉ r.takeWhile p := by
    intro hmem
    rw [List.mem_takeWhile_imp hmem] at hp
    exact Bool.noConfusion hp
  unfold opening at h
  split_ifs at h with hpre
  obtain ⟨rest, hrest, rfl⟩ := Option.map_eq_some_iff.mp h
  obtain ⟨r, rfl⟩ := List.isPrefixOf_iff_prefix.mp hpre
  rw [List.drop_left] at hrest
  obtain ⟨v, hv, hnv⟩ := hend hrest
  refine ⟨TICKS ++ (r.takeWhile infoChar ++ ((r.dropWhile infoChar).takeWhile isBlank ++ v)), ?_, ?_⟩
  · simp only [List.append_assoc, ← hv, List.takeWhile_append_dropWhile]
  · simp only [List.mem_append, not_or]
    exact ⟨ticks_newline, hplain (by decide) _, hplain (by decide) _, hnv⟩

theorem opening_self {s : Str} {o : Str × Str} (h : opening s = some o) :
    ∃ w, s = w ++ o.2 ∧ ∀ x, opening (w ++ x) = some (o.1, x) := by
  obtain ⟨u, hu, -⟩ := opening_line h
  have hsplit : s = u ++ [cp '\n'] ++ o.2 := by simpa using hu
  have hnewline : cp '\n' ∈ u ++ [cp '\n'] := by simp
  rw [hsplit, opening_append hnewline] at h
  obtain ⟨q, hq, hqo⟩ := Option.map_eq_some_iff.mp h
  obtain ⟨hinfo, hrest⟩ := Prod.mk.inj hqo
  refine ⟨u ++ [cp '\n'], hsplit, fun x => ?_⟩
  rw [opening_append hnewline, hq, Option.map_some, List.append_left_eq_self.mp hrest]
  exact congrArg (fun i => some (i, x)) hinfo

/-- A block is a block wherever it stands. -/
theorem fenceAt_self {s : Str} {b : Str × Str × Str} (h : fenceAt s = some b) :
    ∃ w, s = w ++ b.2.2 ∧ w.getLast? = some (cp '`') ∧
      ∀ x, fenceAt (w ++ x) = some (b.1, b.2.1, x) := by
  obtain ⟨o, ho, h⟩ := Option.bind_eq_some_iff.mp h
  obtain ⟨p, hp, rfl⟩ := Option.map_eq_some_iff.mp h
  obtain ⟨u, hu, hopening⟩ := opening_self ho
  obtain ⟨w, hw, hlast, hbody⟩ := bodyFrom_self hp
  refine ⟨u ++ w, by rw [hu, hw, List.append_assoc], by simp [List.getLast?_append, hlast], ?_⟩
  intro x
  rw [List.append_assoc, fenceAt, hopening, Option.bind_some, hbody]
  rfl

/-! ### An opening line that is never closed -/

theorem bodyFrom_false_of_true {s : Str} (h : bodyFrom true s = none) : bodyFrom false s = none := by
  cases s with
  | nil => rfl
  | cons c s =>
    rw [bodyFrom] at h ⊢
    rw [if_neg Bool.false_ne_true]
    cases hc : (if true = true then closing (c :: s) else none) with
    | some rest =>
      rw [hc] at h
      cases h
    | none => rwa [hc] at h

/-- No line below closes a block, so none does further down. -/
theorem bodyFrom_suffix {s t : Str} (h : bodyFrom false s = none) (ht : t <:+ s) :
    bodyFrom false t = none := by
  induction s with
  | nil => rwa [List.suffix_nil.mp ht]
  | cons c s ih =>
    rcases List.suffix_cons_iff.mp ht with rfl | ht
    · exact h
    · refine ih ?_ ht
      rw [bodyFrom, if_neg Bool.false_ne_true, Option.map_eq_none_iff] at h
      cases hc : c == cp '\n' with
      | true => exact bodyFrom_false_of_true (hc ▸ h)
      | false => exact hc ▸ h

theorem bodyFrom_line {u : Str} (hu : cp '\n' ∉ u) (r : Str) :
    bodyFrom false (u ++ cp '\n' :: r) =
      (bodyFrom true r).map fun p => (u ++ cp '\n' :: p.1, p.2) := by
  induction u with
  | nil => simp [bodyFrom]
  | cons c u ih =>
    rw [List.mem_cons, not_or] at hu
    have hc : (c == cp '\n') = false := by simpa using Ne.symm hu.1
    rw [List.cons_append, bodyFrom, if_neg Bool.false_ne_true, hc, ih hu.2]
    simp [Function.comp_def]

theorem bodyFrom_of_opening {s : Str} {o : Str × Str} (h : opening s = some o) :
    bodyFrom false s = none ↔ bodyFrom true o.2 = none := by
  obtain ⟨u, hs, hu⟩ := opening_line h
  rw [hs, bodyFrom_line hu, Option.map_eq_none_iff]

theorem fenceAt_unclosed {s : Str} (h : bodyFrom false s = none) : fenceAt s = none := by
  rw [fenceAt]
  cases ho : opening s with
  | none => rfl
  | some o => rw [Option.bind_some, (bodyFrom_of_opening ho).mp h, Option.map_none]

theorem scan_unclosed {s : Str} (h : bodyFrom false s = none) : scan FENCE_RE s = s.map .skip := by
  induction s with
  | nil => rfl
  | cons c s ih =>
    rw [scan_char (fenceAt_unclosed h), ih (bodyFrom_suffix h (List.suffix_cons c s))]
    rfl

/-! ### A scan read backwards -/

theorem of_scan_skip {c : Cp} {segs : List Seg} {s : Str} (h : scan FENCE_RE s = .skip c :: segs) :
    ∃ s', s = c :: s' ∧ fenceAt s = none ∧ scan FENCE_RE s' = segs := by
  cases hb : fenceAt s with
  | some b =>
    rw [scan_block hb] at h
    cases (List.cons.inj h).1
  | none =>
    cases s with
    | nil => cases h
    | cons d s =>
      rw [scan_char hb] at h
      obtain ⟨hd, hs⟩ := List.cons.inj h
      cases hd
      exact ⟨s, rfl, rfl, hs⟩

theorem of_scan_hit {m : Match} {segs : List Seg} {s : Str} (h : scan FENCE_RE s = .hit m :: segs) :
    ∃ b, fenceAt s = some b ∧ m = blockOf s b ∧ scan FENCE_RE b.2.2 = segs := by
  cases hb : fenceAt s with
  | some b =>
    rw [scan_block hb] at h
    obtain ⟨hm, hs⟩ := List.cons.inj h
    cases hm
    exact ⟨b, rfl, rfl, hs⟩
  | none =>
    cases s with
    | nil => cases h
    | cons d s =>
      rw [scan_char hb] at h
      cases (List.cons.inj h).1

/-- A block at the start of a text, with any text behind it. -/
theorem scan_hit_append {m : Match} {segs : List Seg} {s : Str}
    (h : scan FENCE_RE (m.text ++ s) = .hit m :: segs) :
    scan FENCE_RE s = segs ∧ ∀ x, scan FENCE_RE (m.text ++ x) = .hit m :: scan FENCE_RE x := by
  obtain ⟨b, hb, hm, hsegs⟩ := of_scan_hit h
  obtain ⟨w, hw, -, hself⟩ := fenceAt_self hb
  have hblock (x : Str) : blockOf (w ++ x) (b.1, b.2.1, x) = ⟨w, [(2, b.2.1), (1, b.1)]⟩ := by
    simp [blockOf]
  have hm' : m = ⟨w, [(2, b.2.1), (1, b.1)]⟩ := by
    rw [hm, hw]
    exact hblock b.2.2
  have hrest : s = b.2.2 := by
    rw [hm'] at hw
    exact List.append_cancel_left hw
  refine ⟨hrest ▸ hsegs, fun x => ?_⟩
  rw [hm', scan_block (hself x), hblock]

/-! ### The pieces that are left -/

def Piece.seg : Piece → Seg
  | text c => .skip c
  | block m _ => .hit m

/-- The text of the pieces that are not cut. -/
def left (cut : Piece → Bool) (ps : List Piece) : Str :=
  (ps.filter fun p => !cut p).flatMap Piece.source

/-- Outside the blocks an opening line begins in the text that is left only where one began
before. -/
def seamless (cut : Piece → Bool) : List Piece → Bool
  | [] => true
  | .text c :: ps =>
    ((opening (c :: left cut ps)).isNone || (opening (c :: ps.flatMap Piece.source)).isSome) &&
      seamless cut ps
  | .block _ _ :: ps => seamless cut ps

section

variable {cut : Piece → Bool}

theorem left_texts {ps : List Piece} (htext : ∀ c, cut (.text c) = false) {w : Str}
    (h : ps.map Piece.seg = w.map .skip) : left cut ps = ps.flatMap Piece.source := by
  have hall : ∀ p ∈ ps, (!cut p) = true := by
    intro p hp
    have hseg : p.seg ∈ w.map Seg.skip := h ▸ List.mem_map_of_mem hp
    obtain ⟨c, -, hc⟩ := List.mem_map.mp hseg
    cases p with
    | text d => rw [htext]; rfl
    | block m obj => cases hc
  rw [left, List.filter_eq_self.mpr hall]

/-- A scan of what is left finds what was left. -/
theorem scan_left (htext : ∀ c, cut (.text c) = false) {ps : List Piece}
    (hscan : scan FENCE_RE (ps.flatMap Piece.source) = ps.map Piece.seg)
    (hseam : seamless cut ps = true) :
    scan FENCE_RE (left cut ps) = (ps.filter fun p => !cut p).map Piece.seg := by
  induction ps with
  | nil => rfl
  | cons p ps ih =>
    cases p with
    | text c =>
      obtain ⟨s, hs, hnone, hrest⟩ := of_scan_skip hscan
      obtain rfl : ps.flatMap Piece.source = s := (List.cons.inj hs).2
      have hs' : (Piece.text c :: ps).flatMap Piece.source = c :: ps.flatMap Piece.source := rfl
      rw [hs'] at hnone
      rw [seamless, Bool.and_eq_true, Bool.or_eq_true, Option.isNone_iff_eq_none] at hseam
      have hleft : left cut (.text c :: ps) = c :: left cut ps := by
        simp [left, htext, Piece.source]
      have hfence : fenceAt (c :: left cut ps) = none := by
        rcases hseam.1 with hno | hyes
        · rw [fenceAt, hno, Option.bind_none]
        · -- an opening line that was not closed: nothing behind it is cut
          obtain ⟨o, ho⟩ := Option.isSome_iff_exists.mp hyes
          have hopen : bodyFrom true o.2 = none := by
            rw [fenceAt, ho, Option.bind_some, Option.map_eq_none_iff] at hnone
            exact hnone
          have hunclosed := (bodyFrom_of_opening ho).mpr hopen
          have hplain := scan_unclosed (bodyFrom_suffix hunclosed (List.suffix_cons c _))
          rw [left_texts htext (hrest.symm.trans hplain)]
          exact fenceAt_unclosed hunclosed
      rw [hleft, scan_char hfence, ih hrest hseam.2]
      simp [htext, Piece.seg]
    | block m obj =>
      have hscan' : scan FENCE_RE (m.text ++ ps.flatMap Piece.source) =
          .hit m :: ps.map Piece.seg := hscan
      obtain ⟨hrest, hself⟩ := scan_hit_append hscan'
      have hih := ih hrest hseam
      cases hcut : cut (.block m obj) with
      | true =>
        have hleft : left cut (.block m obj :: ps) = left cut ps := by simp [left, hcut]
        rw [hleft, hih]
        simp [hcut]
      | false =>
        have hleft : left cut (.block m obj :: ps) = m.text ++ left cut ps := by
          simp [left, hcut, Piece.source]
        rw [hleft, hself, hih]
        simp [hcut, Piece.seg]

end

/-! ### Whitespace at the ends -/

theorem fenceAt_append_space (s : Str) {b : Str} (hb : ∀ c ∈ b, isSpace c = true) :
    fenceAt (s ++ b) = (fenceAt s).map fun r => (r.1, r.2.1, r.2.2 ++ b) := by
  cases hs : fenceAt s with
  | some r =>
    obtain ⟨w, rfl, -, hself⟩ := fenceAt_self hs
    rw [List.append_assoc, hself, Option.map_some]
  | none =>
    rw [Option.map_none]
    by_contra hsome
    obtain ⟨r, hr⟩ := Option.ne_none_iff_exists'.mp hsome
    obtain ⟨w, hw, hlast, hself⟩ := fenceAt_self hr
    -- a block ends with a tick, so it does not reach into the whitespace
    have hin : ∃ rest, s = w ++ rest := by
      rcases List.append_eq_append_iff.mp hw with ⟨d, rfl, hd⟩ | ⟨d, hd, -⟩
      · cases d using List.reverseRecOn with
        | nil => exact ⟨[], by simp⟩
        | append_singleton d e =>
          have he : e = cp '`' := by simpa [List.getLast?_append] using hlast
          have hspace := hb e (hd ▸ by simp)
          rw [he] at hspace
          exact absurd hspace (by decide)
      · exact ⟨d, hd⟩
    obtain ⟨rest, rfl⟩ := hin
    rw [hself] at hs
    cases hs

theorem scan_append_space (s : Str) {b : Str} (hb : ∀ c ∈ b, isSpace c = true) :
    scan FENCE_RE (s ++ b) = scan FENCE_RE s ++ b.map .skip := by
  have hplain : cp '`' ∉ b := fun h => absurd (hb _ h) (by decide)
  have hspace : scan FENCE_RE b = b.map .skip := by
    have h := scan_plain hplain []
    rwa [List.append_nil, show scan FENCE_RE [] = [] from rfl, List.append_nil] at h
  induction hn : s.length using Nat.strong_induction_on generalizing s with
  | _ n ih =>
    subst hn
    have happend := fenceAt_append_space s hb
    cases hs : fenceAt s with
    | some r =>
      rw [hs, Option.map_some] at happend
      have hlt := fenceAt_length hs
      rw [scan_block happend, scan_block hs, blockOf_append hlt.le, ih _ hlt r.2.2 rfl]
      rfl
    | none =>
      cases s with
      | nil => exact hspace
      | cons c s =>
        rw [hs, Option.map_none] at happend
        rw [List.cons_append] at happend ⊢
        rw [scan_char happend, scan_char hs, ih s.length (by simp) s rfl]
        rfl

/-! ### The blocks of the prose -/

/-- Each block of the second list has the info word and the object of one of the first. -/
def Echoes (ps qs : List Piece) : Prop :=
  ∀ m obj, .block m obj ∈ qs → ∃ m', .block m' obj ∈ ps ∧ m'.group 1 = m.group 1

theorem Echoes.trans {ps qs rs : List Piece} (h : Echoes ps qs) (h' : Echoes qs rs) :
    Echoes ps rs := by
  intro m obj hm
  obtain ⟨m', hm', hinfo'⟩ := h' m obj hm
  obtain ⟨m'', hm'', hinfo''⟩ := h m' obj hm'
  exact ⟨m'', hm'', hinfo''.trans hinfo'⟩

section
variable [Host]

theorem parse_seg {segs : List Seg} {ps : List Piece} (h : parse segs = .ok ps) :
    ps.map Piece.seg = segs := by
  induction segs generalizing ps with
  | nil => rw [← Except.ok.inj h]; rfl
  | cons seg segs ih =>
    cases seg with
    | skip c =>
      obtain ⟨qs, hqs, rfl⟩ := parse_skip_eq_ok.mp h
      rw [List.map_cons, ih hqs]
      rfl
    | hit m =>
      obtain ⟨obj, -, qs, hqs, rfl⟩ := parse_hit_eq_ok.mp h
      rw [List.map_cons, ih hqs]
      rfl

/-- Some of the pieces parse by themselves. -/
theorem parse_filter {segs : List Seg} {ps : List Piece} (h : parse segs = .ok ps)
    (f : Piece → Bool) : parse ((ps.filter f).map Piece.seg) = .ok (ps.filter f) := by
  induction segs generalizing ps with
  | nil => rw [← Except.ok.inj h]; rfl
  | cons seg segs ih =>
    cases seg with
    | skip c =>
      obtain ⟨qs, hqs, rfl⟩ := parse_skip_eq_ok.mp h
      by_cases hf : f (.text c) = true
      · rw [List.filter_cons_of_pos hf]
        exact parse_skip_eq_ok.mpr ⟨_, ih hqs, rfl⟩
      · rw [List.filter_cons_of_neg hf, ih hqs]
    | hit m =>
      obtain ⟨obj, hobj, qs, hqs, rfl⟩ := parse_hit_eq_ok.mp h
      by_cases hf : f (.block m obj) = true
      · rw [List.filter_cons_of_pos hf]
        exact parse_hit_eq_ok.mpr ⟨obj, hobj, _, ih hqs, rfl⟩
      · rw [List.filter_cons_of_neg hf, ih hqs]

theorem parse_strip {s : Str} {ps : List Piece} (h : parse (scan FENCE_RE s) = .ok ps) :
    ∃ qs, parse (scan FENCE_RE (strip s)) = .ok qs ∧ Echoes ps qs := by
  obtain ⟨a, b, hs, ha, hb⟩ := strip_eq s
  have htick : cp '`' ∉ a := fun hmem => absurd (ha _ hmem) (by decide)
  rw [hs, List.append_assoc, scan_plain htick, scan_append_space _ hb, parse_append, parse_skips,
    parse_append, parse_skips] at h
  obtain ⟨y, hy, rfl⟩ := map_eq_ok.mp h
  obtain ⟨qs, hqs, hy⟩ := bind_eq_ok.mp hy
  cases hy
  exact ⟨qs, hqs, fun m obj hm => ⟨m, by simp [hm], rfl⟩⟩

end

/-- A text with a block that has the info word beside one that has only the key. -/
def mixed (k : Mark) (ps : List Piece) : Bool :=
  ps.any k.fenced && ps.any fun p => k.keyed p && !k.fenced p

/-- What echoes the pieces that were left has no block of the info word, and none that
counts unless the kinds were mixed. -/
theorem uncounted_of_echoes {k : Mark} {ps qs : List Piece}
    (h : Echoes (ps.filter fun p => !k.candidate ps p) qs) :
    qs.any k.fenced = false ∧ (mixed k ps = false → found k qs = []) := by
  have hleft : ∀ q ∈ qs, k.fenced q = false ∧ (mixed k ps = false → k.keyed q = false) := by
    intro q hq
    cases q with
    | text c => exact ⟨rfl, fun _ => rfl⟩
    | block m obj =>
      obtain ⟨m', hm', hinfo⟩ := h m obj hq
      obtain ⟨hmem, hcut⟩ := List.mem_filter.mp hm'
      have hfenced : k.fenced (.block m obj) = k.fenced (.block m' obj) := by
        simp only [Mark.fenced, hinfo]
      have hkeyed : k.keyed (.block m obj) = k.keyed (.block m' obj) := rfl
      rw [hfenced, hkeyed]
      rw [Bool.not_eq_true', Mark.candidate] at hcut
      by_cases hany : ps.any k.fenced = true
      · rw [if_pos hany] at hcut
        refine ⟨hcut, fun hmixed => ?_⟩
        rw [mixed, hany, Bool.true_and, List.any_eq_false] at hmixed
        simpa [hcut] using hmixed _ hmem
      · rw [if_neg hany] at hcut
        rw [Bool.not_eq_true, List.any_eq_false] at hany
        exact ⟨by simpa using hany _ hmem, fun _ => hcut⟩
  have hnone : qs.any k.fenced = false :=
    List.any_eq_false.mpr fun q hq => by simp [(hleft q hq).1]
  refine ⟨hnone, fun hmixed => ?_⟩
  have hcand : k.candidate qs = k.keyed := by
    rw [Mark.candidate, hnone, if_neg Bool.false_ne_true]
  rw [found, hcand, List.filter_eq_nil_iff.mpr fun q hq => by simp [(hleft q hq).2 hmixed]]
  rfl

section
variable [Host]

omit [Host] in
theorem candidate_of_found_nil {k : Mark} {ps : List Piece} (h : found k ps = []) :
    ∀ p ∈ ps, k.candidate ps p = false := by
  intro p hp
  cases p with
  | text c => exact candidate_text k ps c
  | block m obj =>
    by_contra hcut
    have hheld : obj ∈ found k ps :=
      List.mem_filterMap.mpr ⟨_, List.mem_filter.mpr ⟨hp, by simpa using hcut⟩, rfl⟩
    rw [h] at hheld
    nomatch hheld

/-- Where nothing counts, the prose is the text. -/
theorem prose_of_found_nil {k : Mark} {t : Str} {ps : List Piece}
    (hps : parse (scan FENCE_RE t) = .ok ps) (h : found k ps = []) : prose k ps = t := by
  have hall : ∀ p ∈ ps, (!k.candidate ps p) = true := fun p hp => by
    rw [candidate_of_found_nil h p hp]
    rfl
  rw [prose, List.filter_eq_self.mpr hall, parse_source hps, scan_text]

theorem parse_prose {k : Mark} {t : Str} {ps : List Piece}
    (hps : parse (scan FENCE_RE t) = .ok ps) (hseam : seamless (k.candidate ps) ps = true) :
    parse (scan FENCE_RE (prose k ps)) = .ok (ps.filter fun p => !k.candidate ps p) := by
  have hscan : scan FENCE_RE (ps.flatMap Piece.source) = ps.map Piece.seg := by
    rw [parse_source hps, scan_text, parse_seg hps]
  have hleft : prose k ps = left (k.candidate ps) ps := rfl
  rw [hleft, scan_left (candidate_text k ps) hscan hseam]
  exact parse_filter hps _

/-- What an extractor finds in a text whose blocks echo those that were left. -/
theorem cut_of_echoes {k : Mark} {s : Str} {ps qs : List Piece}
    (hqs : parse (scan FENCE_RE s) = .ok qs)
    (h : Echoes (ps.filter fun p => !k.candidate ps p) qs) :
    (∀ m ∈ finditer FENCE_RE s, lower (strip (m.group 1)) ≠ k.fence) ∧
      (mixed k ps = false → ∃ p, cut k s = .ok (p, [])) := by
  obtain ⟨hfenced, hfound⟩ := uncounted_of_echoes h
  refine ⟨(parse_fenced k hqs).mp hfenced, fun hmixed => ⟨prose k qs, ?_⟩⟩
  rw [cut, hqs, Except.map, hfound hmixed]

/-- No opening line arises where blocks are cut out of the text. -/
def Seamless (k : Mark) (t : Str) : Prop :=
  ∀ ps, parse (scan FENCE_RE t) = .ok ps → seamless (k.candidate ps) ps = true

/-- The text has no block with only the key beside one with the info word. -/
def Unmixed (k : Mark) (t : Str) : Prop :=
  ∀ ps, parse (scan FENCE_RE t) = .ok ps → mixed k ps = false

/-- The prose of an extraction holds no block with the info word, and nothing that would be
extracted again. -/
def LeavesNone {β : Type} (k : Mark) (extract : Str → Except LoadError (Str × β)) (nothing : β) :
    Prop :=
  ∀ t p x, extract t = .ok (p, x) → Seamless k t →
    (∀ m ∈ finditer FENCE_RE p, lower (strip (m.group 1)) ≠ k.fence) ∧
      (Unmixed k t → extract p = .ok (p, nothing))

end

end AskFable.Extract

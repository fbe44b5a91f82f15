import AskFable.Extract.Collapse
import AskFable.General.Fallible

/-!
# A block put behind a prose

A block behind a text is cut out again and its object returned, exactly when every fence
opened in the text is closed there, none of the text's own blocks has the info word, and
all of their bodies can be read.
-/
namespace AskFable.Extract
open AskFable.Text AskFable.Python AskFable.Python.JsonText AskFable.Regex AskFable.Fallible

/-! ### The block itself -/

/-- An info word an extractor looks for. -/
structure Mark.Plain (k : Mark) : Prop where
  info : ∀ c ∈ k.fence, infoChar c = true
  lowered : lower (strip k.fence) = k.fence

/-- A block as a model is told to write it. -/
def blockText (k : Mark) (body : Str) : Str :=
  TICKS ++ (k.fence ++ cp '\n' :: (body ++ TICKS))

theorem opening_word {w : Str} (hw : ∀ c ∈ w, infoChar c = true) (s : Str) :
    opening (TICKS ++ (w ++ cp '\n' :: s)) = some (w, s) := by
  have hpre : TICKS.isPrefixOf (TICKS ++ (w ++ cp '\n' :: s)) = true :=
    List.isPrefixOf_iff_prefix.mpr (List.prefix_append _ _)
  have hinfo : infoChar (cp '\n') = false := by decide
  have hblank : isBlank (cp '\n') = false := by decide
  have htake : (w ++ cp '\n' :: s).takeWhile infoChar = w := by
    rw [List.takeWhile_append_of_pos hw, List.takeWhile_cons_of_neg (by simp [hinfo]),
      List.append_nil]
  have hdrop : (w ++ cp '\n' :: s).dropWhile infoChar = cp '\n' :: s := by
    rw [List.dropWhile_append_of_pos hw, List.dropWhile_cons_of_neg (by simp [hinfo])]
  simp only [opening, hpre, if_true, List.drop_left, htake, hdrop,
    List.dropWhile_cons_of_neg (show ¬isBlank (cp '\n') = true by simp [hblank])]
  simp [lineEnd]

section
variable [Host]

theorem fenceAt_block {k : Mark} (hk : k.Plain) {body : Str} (hlined : Lined body) {v : Json}
    (hbody : loads body = .ok v) (tail : Str) :
    fenceAt (blockText k body ++ tail) = some (k.fence, body, tail) := by
  have htext : blockText k body ++ tail =
      TICKS ++ (k.fence ++ cp '\n' :: (body ++ (TICKS ++ tail))) := by
    simp [blockText, List.append_assoc]
  rw [htext, fenceAt, opening_word hk.info, Option.bind_some,
    bodyFrom_calm hlined (.inl rfl) (calm_of_loads hbody true)]
  rfl

theorem looseJson_loads {body : Str} {o : Dict} (h : loads body = .ok (.obj o)) :
    looseJson body = .ok (some o) := by
  rw [looseJson, tryLoad, h]
  rfl

theorem tryLoad_error {s : Str} {e : LoadError} (h : tryLoad s = .error e) : e = .recursion := by
  unfold tryLoad at h
  split at h
  · exact absurd h (by simp)
  · exact absurd h (by simp)
  · exact absurd h (by simp)
  · exact (Except.error.inj h).symm

theorem looseJson_error {s : Str} {e : LoadError} (h : looseJson s = .error e) :
    e = .recursion := by
  unfold looseJson at h
  split at h
  · exact tryLoad_error h
  · exact tryLoad_error h

/-! ### Parsing piece by piece -/

theorem parse_skip (c : Cp) (segs : List Seg) :
    parse (.skip c :: segs) = (parse segs).map (Piece.text c :: ·) := rfl

theorem parse_hit (m : Match) (segs : List Seg) : parse (.hit m :: segs) =
    (looseJson (m.group 2)).bind fun obj => (parse segs).map (Piece.block m obj :: ·) := rfl

theorem parse_append (a b : List Seg) :
    parse (a ++ b) = (parse a).bind fun x => (parse b).map (x ++ ·) := by
  induction a with
  | nil =>
    change parse b = (parse b).map ([] ++ ·)
    cases parse b <;> rfl
  | cons seg a ih =>
    cases seg with
    | skip c =>
      rw [List.cons_append, parse_skip, parse_skip, ih]
      cases parse a <;> cases parse b <;> rfl
    | hit m =>
      rw [List.cons_append, parse_hit, parse_hit, ih]
      cases looseJson (m.group 2) <;> cases parse a <;> cases parse b <;> rfl

theorem parse_skips (w : Str) : parse (w.map Seg.skip) = .ok (w.map Piece.text) := by
  induction w with
  | nil => rfl
  | cons c w ih => rw [List.map_cons, parse_skip, ih]; rfl

theorem parse_skip_eq_ok {c : Cp} {segs : List Seg} {ps : List Piece} :
    parse (.skip c :: segs) = .ok ps ↔ ∃ qs, parse segs = .ok qs ∧ .text c :: qs = ps :=
  map_eq_ok

theorem parse_hit_eq_ok {m : Match} {segs : List Seg} {ps : List Piece} :
    parse (.hit m :: segs) = .ok ps ↔ ∃ obj, looseJson (m.group 2) = .ok obj ∧
      ∃ qs, parse segs = .ok qs ∧ .block m obj :: qs = ps := by
  simp only [parse_hit, bind_eq_ok, map_eq_ok]

/-- The pieces of a scan whose blocks can all be read. -/
theorem parse_ok_iff (segs : List Seg) : (∃ ps, parse segs = .ok ps) ↔
    ∀ m ∈ segs.filterMap Seg.hit?, looseJson (m.group 2) ≠ .error .recursion := by
  induction segs with
  | nil => simp [parse]
  | cons seg segs ih =>
    cases seg with
    | skip c => simp [parse_skip_eq_ok, ih, Seg.hit?]
    | hit m =>
      have hread : (∃ obj, looseJson (m.group 2) = .ok obj) ↔
          looseJson (m.group 2) ≠ .error .recursion := by
        cases hl : looseJson (m.group 2) with
        | error e => simp [looseJson_error hl]
        | ok obj => simp
      have hmap : (∃ ps, parse (.hit m :: segs) = .ok ps) ↔
          looseJson (m.group 2) ≠ .error .recursion ∧ ∃ ps, parse segs = .ok ps := by
        simp only [parse_hit_eq_ok, ← hread]
        exact ⟨fun ⟨_, obj, hobj, qs, hqs, _⟩ => ⟨⟨obj, hobj⟩, qs, hqs⟩,
          fun ⟨⟨obj, hobj⟩, qs, hqs⟩ => ⟨_, obj, hobj, qs, hqs, rfl⟩⟩
      rw [hmap, ih]
      simp [Seg.hit?]

/-- The blocks with the info word are those of the scan. -/
theorem parse_fenced (k : Mark) {segs : List Seg} {ps : List Piece} (h : parse segs = .ok ps) :
    ps.any k.fenced = false ↔
      ∀ m ∈ segs.filterMap Seg.hit?, lower (strip (m.group 1)) ≠ k.fence := by
  induction segs generalizing ps with
  | nil =>
    rw [← Except.ok.inj h]
    simp
  | cons seg segs ih =>
    cases seg with
    | skip c =>
      obtain ⟨qs, hqs, rfl⟩ := parse_skip_eq_ok.mp h
      simpa [Mark.fenced, Seg.hit?] using ih hqs
    | hit m =>
      obtain ⟨obj, -, qs, hqs, rfl⟩ := parse_hit_eq_ok.mp h
      simp only [List.any_cons, Bool.or_eq_false_iff, ih hqs, Mark.fenced, beq_eq_false_iff_ne,
        List.filterMap_cons, Seg.hit?, List.mem_cons, forall_eq_or_imp]

/-! ### What stands before a block -/

/-- Prose that leaves a block behind it alone: each fence opened in it is closed in it,
none of its blocks has the info word, and all their bodies can be read. -/
structure Clear (k : Mark) (p : Str) : Prop where
  closed : unclosed (scan FENCE_RE (p ++ [cp '\n'])) = false
  unmarked : ∀ m ∈ finditer FENCE_RE (p ++ [cp '\n']), lower (strip (m.group 1)) ≠ k.fence
  readable : ∀ m ∈ finditer FENCE_RE (p ++ [cp '\n']), looseJson (m.group 2) ≠ .error .recursion

/-- The block behind a prose, and whitespace behind the block. -/
def behind (k : Mark) (p body tail : Str) : Str :=
  p ++ [cp '\n'] ++ (blockText k body ++ tail)

omit [Host] in
theorem lined_newline (p : Str) : Lined (p ++ [cp '\n']) := by
  intro c hc
  simpa using hc.symm

omit [Host] in
theorem not_space_of_info {c : Cp} (h : infoChar c = true) : isSpace c = false := by
  have hval : c.val = 45 ∨ c.val = 95 ∨ (48 ≤ c.val ∧ c.val ≤ 57) ∨ (65 ≤ c.val ∧ c.val ≤ 90) ∨
      (97 ≤ c.val ∧ c.val ≤ 122) := by
    simp only [infoChar, isAlnum, isDigit, isUpper, isLower, Bool.or_eq_true, Bool.and_eq_true,
      decide_eq_true_eq, beq_iff_eq, Fin.ext_iff, show (cp '_').val = 95 from rfl,
      show (cp '-').val = 45 from rfl] at h
    omega
  simp only [isSpace, Bool.or_eq_false_iff, Bool.and_eq_false_iff, decide_eq_false_iff_not,
    beq_eq_false_iff_ne, ne_eq]
  omega

omit [Host] in
theorem not_tick_of_info {c : Cp} (h : infoChar c = true) : c ≠ cp '`' := by
  rintro rfl
  exact absurd h (by decide)

theorem scan_behind {k : Mark} (hk : k.Plain) {p body tail : Str} (hlined : Lined body) {v : Json}
    (hbody : loads body = .ok v) (htail : ∀ c ∈ tail, isSpace c = true) :
    (unclosed (scan FENCE_RE (p ++ [cp '\n'])) = false →
      ∃ w, scan FENCE_RE (behind k p body tail) = scan FENCE_RE (p ++ [cp '\n']) ++
        .hit ⟨w, [(2, body), (1, k.fence)]⟩ :: tail.map .skip) ∧
    (unclosed (scan FENCE_RE (p ++ [cp '\n'])) = true →
      ∃ segs m segs', scan FENCE_RE (behind k p body tail) =
        segs ++ .hit m :: (k.fence.map .skip ++ segs')) := by
  have htext : behind k p body tail = p ++ [cp '\n'] ++
      (TICKS ++ (k.fence ++ cp '\n' :: (body ++ (TICKS ++ tail)))) := by
    simp [behind, blockText]
  have hscan := scan_append (lined_newline p) (k.fence ++ cp '\n' :: (body ++ (TICKS ++ tail)))
  rw [← htext] at hscan
  refine ⟨fun hclosed => ?_, fun hopen => ?_⟩
  · have hblock := fenceAt_block hk hlined hbody tail
    have htick : cp '`' ∉ tail := fun h => absurd (htail _ h) (by decide)
    have hafter : scan FENCE_RE tail = tail.map .skip := by
      have h := scan_plain htick []
      rwa [List.append_nil, show scan FENCE_RE [] = [] from rfl, List.append_nil] at h
    have hsame : TICKS ++ (k.fence ++ cp '\n' :: (body ++ (TICKS ++ tail))) =
        blockText k body ++ tail := by simp [blockText]
    rw [hscan.1 hclosed, hsame, scan_block hblock, hafter]
    exact ⟨_, rfl⟩
  · obtain ⟨segs, m, hsegs⟩ := hscan.2 hopen
    have htick : cp '`' ∉ k.fence := fun h => not_tick_of_info (hk.info _ h) rfl
    exact ⟨segs, m, _, by rw [hsegs, scan_plain htick]⟩

/-! ### What is cut -/

omit [Host] in
theorem candidate_text (k : Mark) (ps : List Piece) (c : Cp) :
    k.candidate ps (.text c) = false := by
  unfold Mark.candidate
  split_ifs <;> rfl

omit [Host] in
theorem filter_texts (k : Mark) (ps : List Piece) (w : Str) :
    (w.map Piece.text).filter (fun p => !k.candidate ps p) = w.map Piece.text ∧
      (w.map Piece.text).filter (k.candidate ps) = [] := by
  constructor
  · refine List.filter_eq_self.mpr fun p hp => ?_
    obtain ⟨c, -, rfl⟩ := List.mem_map.mp hp
    rw [candidate_text]
    rfl
  · refine List.filter_eq_nil_iff.mpr fun p hp => ?_
    obtain ⟨c, -, rfl⟩ := List.mem_map.mp hp
    rw [candidate_text]
    exact Bool.false_ne_true

omit [Host] in
theorem flatMap_texts (w : Str) : (w.map Piece.text).flatMap Piece.source = w := by
  induction w with
  | nil => rfl
  | cons c w ih => rw [List.map_cons, List.flatMap_cons, ih]; rfl

/-- Text outside the blocks stays. -/
theorem prose_kept (k : Mark) {segs segs' : List Seg} {w : Str} {ps : List Piece}
    (h : parse (segs ++ (w.map .skip ++ segs')) = .ok ps) : w <:+: prose k ps := by
  rw [parse_append, parse_append, parse_skips] at h
  obtain ⟨x, -, h⟩ := bind_eq_ok.mp h
  obtain ⟨z, hz, hps⟩ := map_eq_ok.mp h
  obtain ⟨y, -, rfl⟩ := map_eq_ok.mp hz
  have hprose : prose k ps = ((x ++ (w.map Piece.text ++ y)).filter fun p =>
      !k.candidate ps p).flatMap Piece.source := by rw [hps, prose]
  rw [hprose, List.filter_append, List.filter_append, (filter_texts k ps w).1,
    List.flatMap_append, List.flatMap_append, flatMap_texts, ← List.append_assoc]
  exact List.infix_append _ _ _

omit [Host] in
theorem candidate_fenced {k : Mark} {p : List Piece} (h : p.any k.fenced = true) :
    k.candidate p = k.fenced := by
  unfold Mark.candidate
  rw [if_pos h]

theorem parse_source {segs : List Seg} {ps : List Piece} (h : parse segs = .ok ps) :
    ps.flatMap Piece.source = segs.flatMap Seg.text := by
  induction segs generalizing ps with
  | nil => rw [← Except.ok.inj h]; rfl
  | cons seg segs ih =>
    cases seg with
    | skip c =>
      obtain ⟨qs, hqs, rfl⟩ := parse_skip_eq_ok.mp h
      rw [List.flatMap_cons, List.flatMap_cons, ih hqs]
      rfl
    | hit m =>
      obtain ⟨obj, -, qs, hqs, rfl⟩ := parse_hit_eq_ok.mp h
      rw [List.flatMap_cons, List.flatMap_cons, ih hqs]
      rfl

/-- The pieces of a text with a block behind it. -/
theorem parse_behind {k : Mark} {p body tail w : Str} {o : Dict}
    (hbody : loads body = .ok (.obj o)) :
    parse (scan FENCE_RE (p ++ [cp '\n']) ++
        .hit ⟨w, [(2, body), (1, k.fence)]⟩ :: tail.map .skip) =
      (parse (scan FENCE_RE (p ++ [cp '\n']))).map fun ps =>
        ps ++ .block ⟨w, [(2, body), (1, k.fence)]⟩ (some o) :: tail.map .text := by
  have hgroup : (⟨w, [(2, body), (1, k.fence)]⟩ : Match).group 2 = body := rfl
  rw [parse_append, parse, parse_skips, hgroup, looseJson_loads hbody]
  cases parse (scan FENCE_RE (p ++ [cp '\n'])) <;> rfl

omit [Host] in
theorem fenced_behind {k : Mark} (hk : k.Plain) (w body : Str) (obj : Option Dict) :
    k.fenced (.block ⟨w, [(2, body), (1, k.fence)]⟩ obj) = true := by
  show (lower (strip k.fence) == k.fence) = true
  rw [hk.lowered, beq_self_eq_true]

omit [Host] in
theorem single_append {l : List (Option Dict)} (hl : l ≠ []) (x : Option Dict) :
    single (l ++ [x]) = none := by
  cases l with
  | nil => exact absurd rfl hl
  | cons y l => cases l <;> cases y <;> rfl

omit [Host] in
theorem held_ne_nil {k : Mark} {ps : List Piece} (h : ps.any k.fenced = true) :
    (ps.filter k.fenced).filterMap Piece.held ≠ [] := by
  obtain ⟨q, hq, hfenced⟩ := List.any_eq_true.mp h
  cases q with
  | text c => exact absurd hfenced (by simp [Mark.fenced])
  | block m obj =>
    exact List.ne_nil_of_mem (List.mem_filterMap.mpr ⟨_, List.mem_filter.mpr ⟨hq, hfenced⟩, rfl⟩)

omit [Host] in
/-- Behind a block with the info word, the block is not the only one found. -/
theorem single_found_behind {k : Mark} (hk : k.Plain) {qs : List Piece}
    (hany : qs.any k.fenced = true) (w body tail : Str) (obj : Option Dict) :
    single (found k (qs ++ .block ⟨w, [(2, body), (1, k.fence)]⟩ obj :: tail.map .text)) =
      none := by
  have hblock := fenced_behind hk w body obj
  have hcand := candidate_fenced (k := k) (p := qs ++
    Piece.block ⟨w, [(2, body), (1, k.fence)]⟩ obj :: tail.map .text) (by
      rw [List.any_append, hany, Bool.true_or])
  have htext := (filter_texts k (qs ++
    Piece.block ⟨w, [(2, body), (1, k.fence)]⟩ obj :: tail.map .text) tail).2
  rw [hcand] at htext
  have hfound : found k (qs ++ Piece.block ⟨w, [(2, body), (1, k.fence)]⟩ obj :: tail.map .text) =
      (qs.filter k.fenced).filterMap Piece.held ++ [obj] := by
    simp only [found, hcand, List.filter_append, List.filter_cons, hblock, if_true, htext,
      List.filterMap_append]
    rfl
  rw [hfound]
  exact single_append (held_ne_nil hany) obj

/-- Behind clear prose, the block is all that is cut. -/
theorem cut_clear {k : Mark} (hk : k.Plain) {p body tail : Str} (hlined : Lined body) {o : Dict}
    (hbody : loads body = .ok (.obj o)) (htail : ∀ c ∈ tail, isSpace c = true) (h : Clear k p) :
    cut k (behind k p body tail) = .ok (p ++ [cp '\n'] ++ tail, [some o]) := by
  obtain ⟨w, hw⟩ := (scan_behind hk hlined hbody htail).1 h.closed
  obtain ⟨ps, hps⟩ := (parse_ok_iff _).mpr h.readable
  have hunmarked := (parse_fenced k hps).mpr h.unmarked
  have hblock := fenced_behind hk w body (some o)
  have hcand := candidate_fenced (k := k) (p := ps ++
    Piece.block ⟨w, [(2, body), (1, k.fence)]⟩ (some o) :: tail.map .text) (by
      rw [List.any_append, List.any_cons, hblock, Bool.true_or, Bool.or_true])
  have htext := filter_texts k (ps ++
    Piece.block ⟨w, [(2, body), (1, k.fence)]⟩ (some o) :: tail.map .text) tail
  rw [hcand] at htext
  have hnone : ∀ q ∈ ps, k.fenced q = false := by simpa using hunmarked
  have hkeep : ps.filter (fun q => !k.fenced q) = ps :=
    List.filter_eq_self.mpr fun q hq => by rw [hnone q hq]; rfl
  have hdrop : ps.filter k.fenced = [] :=
    List.filter_eq_nil_iff.mpr fun q hq => by rw [hnone q hq]; exact Bool.false_ne_true
  rw [cut, hw, parse_behind hbody, hps]
  simp only [Except.map, prose, found, hcand, List.filter_append, hkeep, hdrop, List.filter_cons,
    hblock, Bool.not_true, if_true, Bool.false_eq_true, if_false, htext.1, htext.2,
    List.flatMap_append, flatMap_texts, parse_source hps, scan_text]
  rfl

/-- Behind other prose, text of the block stays, or not one block is found. -/
theorem cut_unclear {k : Mark} (hk : k.Plain) {p body tail : Str} (hlined : Lined body) {o : Dict}
    (hbody : loads body = .ok (.obj o)) (htail : ∀ c ∈ tail, isSpace c = true) (h : ¬Clear k p)
    {r : Str × List (Option Dict)} (hr : cut k (behind k p body tail) = .ok r) :
    k.fence <:+: r.1 ∨ single r.2 = none := by
  obtain ⟨ps, hp, rfl⟩ := map_eq_ok.mp hr
  cases hopen : unclosed (scan FENCE_RE (p ++ [cp '\n'])) with
  | true =>
    obtain ⟨segs, m, segs', hsegs⟩ := (scan_behind hk hlined hbody htail).2 hopen
    have hsplit : segs ++ Regex.Seg.hit m :: (k.fence.map .skip ++ segs') =
        (segs ++ [Regex.Seg.hit m]) ++ (k.fence.map .skip ++ segs') := by simp
    rw [hsegs, hsplit] at hp
    exact .inl (prose_kept k hp)
  | false =>
    obtain ⟨w, hw⟩ := (scan_behind hk hlined hbody htail).1 hopen
    rw [hw, parse_behind hbody] at hp
    obtain ⟨qs, hqs, rfl⟩ := map_eq_ok.mp hp
    have hread := (parse_ok_iff _).mp ⟨qs, hqs⟩
    have hmarked : ¬∀ m ∈ finditer FENCE_RE (p ++ [cp '\n']),
        lower (strip (m.group 1)) ≠ k.fence := fun hun => h ⟨hopen, hun, hread⟩
    have hany : qs.any k.fenced = true := by
      by_contra hany
      exact hmarked ((parse_fenced k hqs).mp (Bool.not_eq_true _ ▸ hany))
    exact .inr (single_found_behind hk hany w body tail (some o))

/-! ### The extractors -/

omit [Host] in
theorem infix_dropWhile {f : Cp → Bool} {w s : Str} (hw : ∀ c ∈ w, f c = false) (h : w <:+: s) :
    w <:+: s.dropWhile f := by
  induction s with
  | nil => exact h
  | cons c s ih =>
    by_cases hc : f c = true
    · rw [List.dropWhile_cons_of_pos hc]
      rcases List.infix_cons_iff.mp h with hpre | hrest
      · cases w with
        | nil => exact List.nil_infix
        | cons d w =>
          have hd := hw d List.mem_cons_self
          rw [(List.cons_prefix_cons.mp hpre).1, hc] at hd
          exact absurd hd Bool.true_eq_false.mp
      · exact ih hrest
    · rwa [List.dropWhile_cons_of_neg hc]

omit [Host] in
theorem infix_strip {w s : Str} (hw : ∀ c ∈ w, isSpace c = false) (h : w <:+: s) :
    w <:+: strip s := by
  have hrev : w.reverse <:+: (s.dropWhile isSpace).reverse :=
    List.reverse_infix.mpr (infix_dropWhile hw h)
  have hdrop := infix_dropWhile (fun c hc => hw c (List.mem_reverse.mp hc)) hrev
  have h' := List.reverse_infix.mpr hdrop
  rwa [List.reverse_reverse] at h'

omit [Host] in
/-- Prose that holds the info word is not the prose before the block. -/
theorem prose_differs {k : Mark} (hk : k.Plain) {p : Str} (hp : ¬k.fence <:+: p) {r : Str}
    (hr : k.fence <:+: r) : strip r ≠ strip p := by
  intro heq
  have hw := infix_strip (fun c hc => not_space_of_info (hk.info c hc)) hr
  exact hp ((heq ▸ hw).trans ( strip_infix p))

/-- The prose and the object come back exactly from behind clear prose; `f` is what the
extractor makes of the prose, and `g` of the object. -/
theorem cut_iff {β : Type*} {k : Mark} (hk : k.Plain) {p body tail : Str} (hlined : Lined body)
    {o : Dict} (hbody : loads body = .ok (.obj o)) (htail : ∀ c ∈ tail, isSpace c = true)
    {f : Str → Str} {g : Option Dict → β} {x : Str} {none' : β} (hf : f (p ++ [cp '\n'] ++ tail) = x)
    (hdiffer : ∀ r, k.fence <:+: r → f r ≠ x) (hg : g none ≠ g (some o))
    (hnone : none' ≠ g (some o)) {whole : Str} :
    (cut k (behind k p body tail)).map
        (fun r => if r.2 = [] then (whole, none') else (f r.1, g (single r.2))) =
      .ok (x, g (some o)) ↔ Clear k p := by
  constructor
  · intro h
    by_contra hclear
    cases hr : cut k (behind k p body tail) with
    | error e => rw [hr] at h; exact absurd h (by simp [Except.map])
    | ok r =>
      rw [hr] at h
      have hout := Except.ok.inj h
      dsimp only at hout
      split_ifs at hout with hempty
      · exact hnone (Prod.mk.inj hout).2
      · obtain ⟨hprose, hobj⟩ := Prod.mk.inj hout
        rcases cut_unclear hk hlined hbody htail hclear hr with hword | hsingle
        · exact hdiffer r.1 hword hprose
        · rw [hsingle] at hobj
          exact hg hobj
  · intro hclear
    rw [cut_clear hk hlined hbody htail hclear, ← hf]
    rfl

omit [Host] in
theorem sidecar_plain : Sidecar.MARK.Plain := ⟨List.all_eq_true.mp (by decide), by decide⟩

omit [Host] in
theorem debate_plain : DebateLedger.MARK.Plain := ⟨List.all_eq_true.mp (by decide), by decide⟩

omit [Host] in
theorem falsify_plain : FalsifyLedger.MARK.Plain := ⟨List.all_eq_true.mp (by decide), by decide⟩

omit [Host] in
theorem verify_plain : Verify.MARK.Plain := ⟨List.all_eq_true.mp (by decide), by decide⟩

section
variable {p body tail : Str} (hlined : Lined body) {o : Dict} (hbody : loads body = .ok (.obj o))
  (htail : ∀ c ∈ tail, isSpace c = true)
include hlined hbody htail

omit [Host] hlined hbody in
theorem strip_behind (p : Str) : strip (p ++ [cp '\n'] ++ tail) = strip p := by
  have hbreak : ∀ c ∈ [cp '\n'], isSpace c = true := List.all_eq_true.mp (by decide)
  rw [strip_append_space _ htail, strip_append_space p hbreak]

theorem sidecar_iff (hp : ¬Sidecar.MARK.fence <:+: p) :
    Sidecar.extract (behind Sidecar.MARK p body tail) =
      .ok (strip p, some (Sidecar.normalize o)) ↔ Clear Sidecar.MARK p :=
  cut_iff sidecar_plain hlined hbody htail (g := fun x => x.map Sidecar.normalize)
    (strip_behind htail p) (fun _ => prose_differs sidecar_plain hp) (by simp) (by simp)

theorem ledger_iff {k : Mark} (hk : k.Plain) (hp : ¬k.fence <:+: p) :
    extractLedger k (behind k p body tail) = .ok (strip p, some o) ↔ Clear k p :=
  cut_iff hk hlined hbody htail (g := fun x => x) (strip_behind htail p)
    (fun _ => prose_differs hk hp) (by simp) (by simp)

theorem verify_iff (hp : ¬Verify.MARK.fence <:+: p) {raw : List Json}
    (hraw : Dict.get o (txt "objections") = some (.arr raw)) :
    Verify.extract (behind Verify.MARK p body tail) =
      .ok (strip (Verify.collapse p), Verify.scrub raw, true) ↔ Clear Verify.MARK p := by
  have hread : Verify.readBlock (some o) = (Verify.scrub raw, true) := by
    rw [Verify.readBlock, Option.bind_some, hraw]
  have hbreak : cp '\n' ∉ Verify.MARK.fence := by decide
  have hspace : ∀ c ∈ [cp '\n'] ++ tail, isSpace c = true := by
    intro c hc
    rcases List.mem_append.mp hc with hc | hc
    · rw [List.mem_singleton.mp hc]
      decide
    · exact htail c hc
  rw [← hread]
  refine cut_iff verify_plain hlined hbody htail (f := fun s => strip (Verify.collapse s)) ?_
    (fun r hr => ?_) ?_ ?_
  · rw [List.append_assoc]
    exact strip_collapse_append p hspace
  · refine prose_differs verify_plain (fun h => hp ?_) (((thinned_collapse r).infix_iff hbreak).mp hr)
    exact ((thinned_collapse p).infix_iff hbreak).mpr h
  · rw [hread]
    exact fun h => Bool.false_ne_true (Prod.mk.inj h).2
  · rw [hread]
    exact fun h => Bool.false_ne_true (Prod.mk.inj h).2

/-- What each extractor returns from a prose with a block behind it, when it returns the
prose and the block's object. -/
theorem block_round_trip (p : Str) :
    (¬Sidecar.MARK.fence <:+: p →
      (Sidecar.extract (behind Sidecar.MARK p body tail) =
        .ok (strip p, some (Sidecar.normalize o)) ↔ Clear Sidecar.MARK p)) ∧
    (¬DebateLedger.MARK.fence <:+: p →
      (DebateLedger.extract (behind DebateLedger.MARK p body tail) = .ok (strip p, some o) ↔
        Clear DebateLedger.MARK p)) ∧
    (¬FalsifyLedger.MARK.fence <:+: p →
      (FalsifyLedger.extract (behind FalsifyLedger.MARK p body tail) = .ok (strip p, some o) ↔
        Clear FalsifyLedger.MARK p)) ∧
    (¬Verify.MARK.fence <:+: p → ∀ raw, Dict.get o (txt "objections") = some (.arr raw) →
      (Verify.extract (behind Verify.MARK p body tail) =
        .ok (strip (Verify.collapse p), Verify.scrub raw, true) ↔ Clear Verify.MARK p)) := by
  refine ⟨fun hp => ?_, fun hp => ?_, fun hp => ?_, fun hp raw hraw => ?_⟩
  · exact sidecar_iff hlined hbody htail hp
  · exact ledger_iff hlined hbody htail debate_plain hp
  · exact ledger_iff hlined hbody htail falsify_plain hp
  · exact verify_iff hlined hbody htail hp hraw

end

end

/-! ### Prose that is clear, and prose that is not -/

/-- Whether a text holds an object with some property. -/
def loadsTo [Host] (s : Str) (f : Dict → Bool) : Bool :=
  match loads s with
  | .ok (.obj o) => f o
  | _ => false

theorem loadsTo_iff [Host] {s : Str} {f : Dict → Bool} (h : loadsTo s f = true) :
    ∃ o, loads s = .ok (.obj o) ∧ f o = true := by
  unfold loadsTo at h
  split at h
  · exact ⟨_, ‹_›, h⟩
  · exact absurd h Bool.false_ne_true

def appliedBody : Str :=
  txt "\x7b\"sidecar_version\": 1, \"recommendation\": \"apply\", \"confidence\": \"high\", " ++
    txt "\"needs_context\": []\x7d\n"

theorem loads_applied :
    letI := Host.ascii
    ∃ o, loads appliedBody = .ok (.obj o) ∧
      Sidecar.normalize o = ⟨some (txt "apply"), some (txt "high"), []⟩ := by
  let _ := Host.ascii
  have h : loadsTo appliedBody (fun o =>
      decide (Sidecar.normalize o = ⟨some (txt "apply"), some (txt "high"), []⟩)) = true := by
    decide +kernel
  obtain ⟨o, ho, hf⟩ := loadsTo_iff h
  exact ⟨o, ho, of_decide_eq_true hf⟩

theorem lined_applied : Lined appliedBody := by
  have hlast : appliedBody.getLast? = some (cp '\n') := by decide
  intro c hc
  rw [hlast] at hc
  exact (Option.some.inj hc).symm

theorem block_round_trip_plain :
    letI := Host.ascii
    Sidecar.extract (behind Sidecar.MARK (txt "Yes.") appliedBody [cp '\n']) =
      .ok (strip (txt "Yes."), some ⟨some (txt "apply"), some (txt "high"), []⟩) := by
  let _ := Host.ascii
  obtain ⟨o, hload, ho⟩ := loads_applied
  have hempty : finditer FENCE_RE (txt "Yes." ++ [cp '\n']) = [] := by
    have h : (finditer FENCE_RE (txt "Yes." ++ [cp '\n'])).isEmpty = true := by decide
    exact List.isEmpty_iff.mp h
  have hclear : Clear Sidecar.MARK (txt "Yes.") := by
    refine ⟨by decide, fun m hm => ?_, fun m hm => ?_⟩
    · rw [hempty] at hm
      exact absurd hm List.not_mem_nil
    · rw [hempty] at hm
      exact absurd hm List.not_mem_nil
  have hspace : ∀ c ∈ [cp '\n'], isSpace c = true := List.all_eq_true.mp (by decide)
  have h := ((block_round_trip lined_applied hload hspace (txt "Yes.")).1 (by decide)).mpr
    hclear
  rwa [ho] at h

/-- A span of backticks in the prose: its closing ticks are taken for an opening fence,
which the block's own opening ticks close. -/
theorem span_swallows_block :
    letI := Host.ascii
    ¬Sidecar.MARK.fence <:+: txt "use ```x```" ∧
      (∃ o, loads appliedBody = .ok (.obj o) ∧
        Sidecar.normalize o = ⟨some (txt "apply"), some (txt "high"), []⟩) ∧
      Sidecar.extract (behind Sidecar.MARK (txt "use ```x```") appliedBody []) =
        .ok (behind Sidecar.MARK (txt "use ```x```") appliedBody [], none) := by
  let _ := Host.ascii
  refine ⟨by decide +kernel, loads_applied, ?_⟩
  decide +kernel

end AskFable.Extract

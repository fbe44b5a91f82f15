import AskFable.Extract.Fence

/-!
# Scanning a text for blocks

The scan does not depend on what stands before it, so a text is read block by block. When
another text is put behind one that ends with a line break, the blocks found in the first
stay, unless a fence opened there is still waiting for its closing ticks.
-/
namespace AskFable.Extract
open AskFable.Text AskFable.Regex

/-! ### Lengths -/

theorem lineEnd_length {s rest : Str} (h : lineEnd s = some rest) : rest.length < s.length := by
  cases s with
  | nil => simp [lineEnd] at h
  | cons c s =>
    rw [lineEnd.eq_def] at h
    dsimp only at h
    split_ifs at h
    · rw [← Option.some.inj h]
      simp
    · cases s with
      | nil => simp at h
      | cons d s =>
        simp only at h
        split_ifs at h
        rw [← Option.some.inj h, List.length_cons, List.length_cons]
        omega

theorem length_dropWhile_le (p : Cp → Bool) (s : Str) : (s.dropWhile p).length ≤ s.length :=
  (List.dropWhile_sublist p).length_le

theorem opening_length {s : Str} {o : Str × Str} (h : opening s = some o) :
    o.2.length < s.length := by
  unfold opening at h
  split_ifs at h
  obtain ⟨rest, hrest, rfl⟩ := Option.map_eq_some_iff.mp h
  have h1 := lineEnd_length hrest
  have h2 := length_dropWhile_le isBlank ((s.drop TICKS.length).dropWhile infoChar)
  have h3 := length_dropWhile_le infoChar (s.drop TICKS.length)
  have h4 : (s.drop TICKS.length).length ≤ s.length := by simp
  show rest.length < s.length
  omega

theorem closing_length {s rest : Str} (h : closing s = some rest) : rest.length ≤ s.length := by
  unfold closing at h
  dsimp only at h
  split_ifs at h
  have hle := length_dropWhile_le isBlank s
  rw [← Option.some.inj h, List.length_drop]
  omega

theorem bodyFrom_length {start : Bool} {s : Str} {p : Str × Str} (h : bodyFrom start s = some p) :
    p.2.length ≤ s.length := by
  induction s generalizing start p with
  | nil => simp [bodyFrom] at h
  | cons c s ih =>
    rw [bodyFrom] at h
    cases hc : (if start then closing (c :: s) else none) with
    | some rest =>
      rw [hc] at h
      rw [← Option.some.inj h]
      split_ifs at hc
      exact closing_length hc
    | none =>
      rw [hc] at h
      obtain ⟨q, hq, rfl⟩ := Option.map_eq_some_iff.mp h
      exact (ih hq).trans (Nat.le_succ _)

theorem fenceAt_length {s : Str} {b : Str × Str × Str} (h : fenceAt s = some b) :
    b.2.2.length < s.length := by
  obtain ⟨o, ho, h⟩ := Option.bind_eq_some_iff.mp h
  obtain ⟨p, hp, rfl⟩ := Option.map_eq_some_iff.mp h
  exact (bodyFrom_length hp).trans_lt (opening_length ho)

/-! ### The scan, read off the text -/

/-- The match of a block at the start of a text. -/
def blockOf (s : Str) (b : Str × Str × Str) : Match :=
  ⟨s.take (s.length - b.2.2.length), [(2, b.2.1), (1, b.1)]⟩

theorem read_fence : ReadBy FENCE_RE fun s =>
    (fenceAt s).map fun b => (b.2.2, [(2, b.2.1), (1, b.1)]) := by
  refine .of_run run_fence fun s r hr => ?_
  obtain ⟨b, hb, rfl⟩ := Option.map_eq_some_iff.mp hr
  exact fenceAt_length hb

theorem scan_block {s : Str} {b : Str × Str × Str} (h : fenceAt s = some b) :
    scan FENCE_RE s = .hit (blockOf s b) :: scan FENCE_RE b.2.2 :=
  read_fence.scan_hit (r := (b.2.2, [(2, b.2.1), (1, b.1)])) (by rw [h]; rfl)

theorem scan_char {c : Cp} {s : Str} (h : fenceAt (c :: s) = none) :
    scan FENCE_RE (c :: s) = .skip c :: scan FENCE_RE s :=
  read_fence.scan_skip (by rw [h]; rfl)

/-- Text without a backtick is passed over. -/
theorem scan_plain {w : Str} (hw : cp '`' ∉ w) (s : Str) :
    scan FENCE_RE (w ++ s) = w.map .skip ++ scan FENCE_RE s := by
  induction w with
  | nil => rfl
  | cons c w ih =>
    rw [List.mem_cons, not_or] at hw
    have hnone : fenceAt (c :: (w ++ s)) = none := by
      have hpre : TICKS.isPrefixOf (c :: (w ++ s)) = false := by
        by_contra hpre
        rw [Bool.not_eq_false, List.isPrefixOf_iff_prefix] at hpre
        obtain ⟨rest, hrest⟩ := hpre
        exact hw.1 (List.cons.inj hrest).1
      simp [fenceAt, opening, hpre]
    rw [List.cons_append, scan_char hnone, ih hw.2]
    rfl

/-! ### A text put behind another -/

/-- Empty, or ending with a line break. -/
def Lined (s : Str) : Prop := ∀ c ∈ s.getLast?, c = cp '\n'

theorem Lined.suffix {s t : Str} (h : Lined s) (ht : t <:+ s) : Lined t := by
  obtain ⟨u, rfl⟩ := ht
  intro c hc
  refine h c ?_
  rw [List.getLast?_append, Option.mem_def.mp hc]
  rfl

theorem Lined.mem {s : Str} (h : Lined s) (hs : s ≠ []) : cp '\n' ∈ s := by
  have hlast := h _ (List.getLast?_eq_some_getLast hs)
  exact hlast ▸ List.getLast_mem hs

theorem prefix_append_iff {w s t : Str} (hw : cp '\n' ∉ w) (hs : cp '\n' ∈ s) :
    w.isPrefixOf (s ++ t) = w.isPrefixOf s := by
  rw [Bool.eq_iff_iff, List.isPrefixOf_iff_prefix, List.isPrefixOf_iff_prefix]
  refine ⟨fun h => ?_, fun h => h.trans (List.prefix_append s t)⟩
  rcases List.prefix_or_prefix_of_prefix h (List.prefix_append s t) with hws | hsw
  · exact hws
  · exact absurd (hsw.subset hs) hw

theorem mem_dropWhile {p : Cp → Bool} {c : Cp} (hp : p c = false) {s : Str} (hs : c ∈ s) :
    c ∈ s.dropWhile p := by
  induction s with
  | nil => exact absurd hs List.not_mem_nil
  | cons d s ih =>
    by_cases hd : p d = true
    · rw [List.dropWhile_cons_of_pos hd]
      rcases List.mem_cons.mp hs with rfl | hs
      · rw [hp] at hd
        exact absurd hd (by simp)
      · exact ih hs
    · rw [List.dropWhile_cons_of_neg hd]
      exact hs

theorem span_append {p : Cp → Bool} {c : Cp} (hp : p c = false) {s : Str} (hs : c ∈ s) (t : Str) :
    (s ++ t).dropWhile p = s.dropWhile p ++ t ∧ (s ++ t).takeWhile p = s.takeWhile p := by
  induction s with
  | nil => exact absurd hs List.not_mem_nil
  | cons d s ih =>
    by_cases hd : p d = true
    · have hmem : c ∈ s := by
        rcases List.mem_cons.mp hs with rfl | hs
        · rw [hp] at hd
          exact absurd hd (by simp)
        · exact hs
      simp [hd, ih hmem]
    · simp [hd]

theorem lineEnd_append {s : Str} (hs : cp '\n' ∈ s) (t : Str) :
    lineEnd (s ++ t) = (lineEnd s).map (· ++ t) := by
  cases s with
  | nil => exact absurd hs List.not_mem_nil
  | cons c s =>
    by_cases hn : c = cp '\n'
    · simp [lineEnd, hn]
    · have hs' : cp '\n' ∈ s := (List.mem_cons.mp hs).resolve_left (Ne.symm hn)
      cases s with
      | nil => exact absurd hs' List.not_mem_nil
      | cons d s =>
        have hcr : cp '\r' ≠ cp '\n' := by decide
        by_cases hr : c = cp '\r' <;> by_cases hd : d = cp '\n' <;>
          simp [lineEnd, hn, hr, hd, hcr]

theorem ticks_newline : cp '\n' ∉ TICKS := by decide

theorem mem_drop_ticks {s : Str} (hpre : TICKS.isPrefixOf s = true) (hs : cp '\n' ∈ s) :
    cp '\n' ∈ s.drop TICKS.length := by
  obtain ⟨r, rfl⟩ := List.isPrefixOf_iff_prefix.mp hpre
  rw [List.drop_left]
  exact (List.mem_append.mp hs).resolve_left ticks_newline

theorem opening_append {s : Str} (hs : cp '\n' ∈ s) (t : Str) :
    opening (s ++ t) = (opening s).map fun o => (o.1, o.2 ++ t) := by
  unfold opening
  rw [prefix_append_iff ticks_newline hs]
  by_cases hpre : TICKS.isPrefixOf s = true
  swap
  · simp [hpre]
  have hdrop : (s ++ t).drop TICKS.length = s.drop TICKS.length ++ t :=
    List.drop_append_of_le_length (List.isPrefixOf_iff_prefix.mp hpre).length_le
  have hmem := mem_drop_ticks hpre hs
  have hinfo := span_append (p := infoChar) (by decide) hmem t
  have hmem' := mem_dropWhile (p := infoChar) (by decide) hmem
  have hblank := span_append (p := isBlank) (by decide) hmem' t
  have hmem'' := mem_dropWhile (p := isBlank) (by decide) hmem'
  simp only [hpre, if_true, hdrop, hinfo.1, hinfo.2, hblank.1, lineEnd_append hmem'', Option.map_map,
    Function.comp_def]

theorem closing_append {s : Str} (hs : cp '\n' ∈ s) (t : Str) :
    closing (s ++ t) = (closing s).map (· ++ t) := by
  have hblank := span_append (p := isBlank) (by decide) hs t
  have hmem := mem_dropWhile (p := isBlank) (by decide) hs
  unfold closing
  dsimp only
  rw [hblank.1, prefix_append_iff ticks_newline hmem]
  by_cases hpre : TICKS.isPrefixOf (s.dropWhile isBlank) = true
  · have hle : TICKS.length ≤ (s.dropWhile isBlank).length :=
      (List.isPrefixOf_iff_prefix.mp hpre).length_le
    simp only [hpre, if_true, Option.map_some, List.drop_append_of_le_length hle]
  · simp [hpre]

/-- A body that ends in the first text ends there; one that does not, ends at the ticks
the second text starts with. -/
theorem bodyFrom_append {s : Str} (hs : Lined s) (start : Bool) (hstart : start = true ∨ s ≠ [])
    (t : Str) : bodyFrom start (s ++ (TICKS ++ t)) =
      some ((bodyFrom start s).elim (s, t) fun p => (p.1, p.2 ++ (TICKS ++ t))) := by
  induction s generalizing start with
  | nil =>
    obtain rfl : start = true := hstart.resolve_right (fun h => h rfl)
    rfl
  | cons c s ih =>
    have hmem : cp '\n' ∈ c :: s := hs.mem (List.cons_ne_nil c s)
    have hnext : (c == cp '\n') = true ∨ s ≠ [] := by
      by_cases hnil : s = []
      · subst hnil
        exact .inl (by simpa using hs c rfl)
      · exact .inr hnil
    have hrest := ih (hs.suffix (List.suffix_cons c s)) _ hnext
    rw [List.cons_append, bodyFrom, bodyFrom, ← List.cons_append, closing_append hmem, hrest]
    cases start with
    | false => cases bodyFrom (c == cp '\n') s <;> simp
    | true =>
      cases closing (c :: s) with
      | some r => simp
      | none => cases bodyFrom (c == cp '\n') s <;> simp

/-- Outside the blocks of a scanned text, an opening line is left without its closing
ticks. -/
def unclosed : List Seg → Bool
  | [] => false
  | .skip c :: segs => (opening (c :: segs.flatMap Seg.text)).isSome || unclosed segs
  | .hit _ :: segs => unclosed segs

theorem fenceAt_suffix {s : Str} {b : Str × Str × Str} (h : fenceAt s = some b) : b.2.2 <:+ s := by
  have hsegs := scan_text FENCE_RE s
  rw [scan_block h, List.flatMap_cons, scan_text] at hsegs
  exact ⟨_, hsegs⟩

theorem lineEnd_suffix {s rest : Str} (h : lineEnd s = some rest) : rest <:+ s := by
  cases s with
  | nil => simp [lineEnd] at h
  | cons c s =>
    rw [lineEnd.eq_def] at h
    dsimp only at h
    split_ifs at h
    · rw [← Option.some.inj h]
      exact List.suffix_cons c s
    · cases s with
      | nil => simp at h
      | cons d s =>
        simp only at h
        split_ifs at h
        rw [← Option.some.inj h]
        exact (List.suffix_cons d s).trans (List.suffix_cons c _)

theorem opening_suffix {s : Str} {o : Str × Str} (h : opening s = some o) : o.2 <:+ s := by
  unfold opening at h
  split_ifs at h
  obtain ⟨rest, hrest, rfl⟩ := Option.map_eq_some_iff.mp h
  exact (lineEnd_suffix hrest).trans ((List.dropWhile_suffix _).trans
    ((List.dropWhile_suffix _).trans (List.drop_suffix _ s)))

/-- A fence behind a text closes what is still open at its start. -/
theorem fenceAt_append {s : Str} (hs : Lined s) (hne : s ≠ []) (t : Str) :
    fenceAt (s ++ (TICKS ++ t)) = (opening s).map fun o =>
      (bodyFrom true o.2).elim (o.1, o.2, t) fun p => (o.1, p.1, p.2 ++ (TICKS ++ t)) := by
  rw [fenceAt, opening_append (hs.mem hne)]
  cases ho : opening s with
  | none => rfl
  | some o =>
    have hbody := bodyFrom_append (hs.suffix (opening_suffix ho)) true (.inl rfl) t
    simp only [Option.map_some, Option.bind_some, hbody]
    cases bodyFrom true o.2 <;> rfl

theorem blockOf_append {s : Str} {info body rest : Str} (h : rest.length ≤ s.length) (t : Str) :
    blockOf (s ++ t) (info, body, rest ++ t) = blockOf s (info, body, rest) := by
  have hlen : (s ++ t).length - (rest ++ t).length = s.length - rest.length := by
    simp only [List.length_append]
    omega
  simp only [blockOf, hlen, List.take_append_of_le_length (Nat.sub_le s.length rest.length)]

/-- The scan of a text with a fence behind it: what was closed stays, and what was left
open swallows the ticks. -/
theorem scan_append {s : Str} (hs : Lined s) (t : Str) :
    (unclosed (scan FENCE_RE s) = false →
      scan FENCE_RE (s ++ (TICKS ++ t)) = scan FENCE_RE s ++ scan FENCE_RE (TICKS ++ t)) ∧
    (unclosed (scan FENCE_RE s) = true →
      ∃ segs m, scan FENCE_RE (s ++ (TICKS ++ t)) = segs ++ .hit m :: scan FENCE_RE t) := by
  induction hn : s.length using Nat.strong_induction_on generalizing s with
  | _ n ih =>
    subst hn
    cases s with
    | nil => exact ⟨fun _ => rfl, fun h => absurd h (by decide)⟩
    | cons c s =>
      have hfence := fenceAt_append hs (List.cons_ne_nil c s) t
      have hrest := ih s.length (by simp) (hs.suffix (List.suffix_cons c s)) rfl
      cases ho : opening (c :: s) with
      | none =>
        have hnone : fenceAt (c :: s) = none := by rw [fenceAt, ho]; rfl
        rw [ho, Option.map_none, List.cons_append] at hfence
        rw [scan_char hnone, List.cons_append, scan_char hfence, unclosed, scan_text, ho]
        refine ⟨fun h => ?_, fun h => ?_⟩
        · rw [hrest.1 h]
          rfl
        · obtain ⟨segs, m, hsegs⟩ := hrest.2 h
          exact ⟨.skip c :: segs, m, by rw [hsegs]; rfl⟩
      | some o =>
        cases hb : bodyFrom true o.2 with
        | none =>
          have hnone : fenceAt (c :: s) = none := by simp [fenceAt, ho, hb]
          rw [ho, Option.map_some, hb, Option.elim_none] at hfence
          rw [scan_char hnone, unclosed, scan_text, ho]
          exact ⟨fun h => absurd h (by simp), fun _ => ⟨[], _, scan_block hfence⟩⟩
        | some p =>
          have hblock : fenceAt (c :: s) = some (o.1, p.1, p.2) := by simp [fenceAt, ho, hb]
          rw [ho, Option.map_some, hb, Option.elim_some] at hfence
          have hlt := fenceAt_length hblock
          have hrest' := ih p.2.length hlt (hs.suffix (fenceAt_suffix hblock)) rfl
          rw [scan_block hblock, scan_block hfence, blockOf_append hlt.le, unclosed]
          refine ⟨fun h => ?_, fun h => ?_⟩
          · rw [hrest'.1 h]
            rfl
          · obtain ⟨segs, m, hsegs⟩ := hrest'.2 h
            exact ⟨.hit _ :: segs, m, by rw [hsegs]; rfl⟩

end AskFable.Extract

import AskFable.Extract.Residue
import AskFable.Extract.Thinned

/-!
# Extracting from the prose again

A thinned text has the same blocks in the same order: its opening and closing lines are the
same lines, and its bodies load alike. So collapsing the line breaks of a prose adds no
block to it, and no extractor finds anything in the prose it returned, except what its two
kinds of blocks leave there by design.
-/
namespace AskFable.Extract
open AskFable.Text AskFable.Python AskFable.Python.JsonText AskFable.Regex AskFable.Fallible

/-! ### The lines of a fence -/

section
variable {s r : Str}

theorem lineEnd_thinned (h : Thinned s r) :
    Option.Rel (fun x y => Thinned (cp '\n' :: x) (cp '\n' :: y)) (lineEnd s) (lineEnd r) := by
  cases h with
  | nil => exact .none
  | drop h =>
    obtain ⟨r, rfl⟩ := h.cons_left
    exact .some (.drop h)
  | @keep c s r h =>
    rw [lineEnd.eq_def, lineEnd.eq_def]
    dsimp only
    split_ifs
    · exact .some (.keep _ h)
    · cases h with
      | nil => exact .none
      | drop h =>
        obtain ⟨r, rfl⟩ := h.cons_left
        exact .some (.drop h)
      | keep d h =>
        dsimp only
        split_ifs
        · exact .some (.keep _ h)
        · exact .none
    · exact .none

theorem opening_thinned (h : Thinned s r) :
    Option.Rel (fun o q => o.1 = q.1 ∧ Thinned (cp '\n' :: o.2) (cp '\n' :: q.2))
      (opening s) (opening r) := by
  have hticks := h.prefix_iff ticks_newline
  unfold opening
  by_cases hs : TICKS <+: s
  · have hr := hticks.mp hs
    rw [if_pos (List.isPrefixOf_iff_prefix.mpr hs), if_pos (List.isPrefixOf_iff_prefix.mpr hr)]
    obtain ⟨s, rfl⟩ := hs
    obtain ⟨r, rfl⟩ := hr
    rw [List.drop_left, List.drop_left]
    have hrest := h.drop_word ticks_newline
    have hinfo := hrest.takeWhile_eq (p := infoChar) (by decide)
    have hend := lineEnd_thinned ((hrest.dropWhile infoChar).dropWhile isBlank)
    dsimp only
    generalize lineEnd ((s.dropWhile infoChar).dropWhile isBlank) = x,
      lineEnd ((r.dropWhile infoChar).dropWhile isBlank) = y at hend
    cases hend with
    | none => exact .none
    | some hline => exact .some ⟨hinfo, hline⟩
  · rw [if_neg fun hp => hs (List.isPrefixOf_iff_prefix.mp hp),
      if_neg fun hp => hs (hticks.mpr (List.isPrefixOf_iff_prefix.mp hp))]
    exact .none

theorem closing_thinned (h : Thinned s r) : Option.Rel Thinned (closing s) (closing r) := by
  have hblank := h.dropWhile isBlank
  have hticks := hblank.prefix_iff ticks_newline
  unfold closing
  dsimp only
  by_cases hs : TICKS <+: s.dropWhile isBlank
  · have hr := hticks.mp hs
    rw [if_pos (List.isPrefixOf_iff_prefix.mpr hs), if_pos (List.isPrefixOf_iff_prefix.mpr hr)]
    obtain ⟨x, hx⟩ := hs
    obtain ⟨y, hy⟩ := hr
    rw [← hx, ← hy] at hblank ⊢
    rw [List.drop_left, List.drop_left]
    exact .some (hblank.drop_word ticks_newline)
  · rw [if_neg fun hp => hs (List.isPrefixOf_iff_prefix.mp hp),
      if_neg fun hp => hs (hticks.mpr (List.isPrefixOf_iff_prefix.mp hp))]
    exact .none

/-- A line break closes no body, whether or not it begins a line. -/
theorem bodyFrom_newline (start : Bool) (s : Str) :
    bodyFrom start (cp '\n' :: s) = (bodyFrom true s).map fun p => (cp '\n' :: p.1, p.2) := by
  cases start <;> rfl

theorem bodyFrom_thinned (h : Thinned s r) (start : Bool) :
    Option.Rel (fun p q => Thinned p.1 q.1 ∧ Thinned p.2 q.2) (bodyFrom start s)
      (bodyFrom start r) := by
  induction h generalizing start with
  | nil => cases start <;> exact .none
  | @keep c s r h ih =>
    have hclosing : Option.Rel Thinned (if start then closing (c :: s) else none)
        (if start then closing (c :: r) else none) := by
      split_ifs
      · exact closing_thinned (.keep c h)
      · exact .none
    have hnext := ih (c == cp '\n')
    rw [bodyFrom, bodyFrom]
    generalize (if start then closing (c :: s) else none) = x,
      (if start then closing (c :: r) else none) = y at hclosing
    cases hclosing with
    | some hrest => exact .some ⟨.nil, hrest⟩
    | none =>
      generalize bodyFrom (c == cp '\n') s = x, bodyFrom (c == cp '\n') r = y at hnext
      cases hnext with
      | none => exact .none
      | some hpq => exact .some ⟨.keep c hpq.1, hpq.2⟩
  | @drop s r h ih =>
    -- the body goes on behind either of the two line breaks
    have hnext := ih start
    obtain ⟨r, rfl⟩ := h.cons_left
    rw [bodyFrom_newline, bodyFrom_newline start r] at hnext
    rw [bodyFrom_newline, bodyFrom_newline, bodyFrom_newline start r]
    generalize bodyFrom true s = x, bodyFrom true r = y at hnext
    cases x with
    | none =>
      cases y with
      | none => exact .none
      | some q => cases hnext
    | some p =>
      cases y with
      | none => cases hnext
      | some q =>
        obtain ⟨hbody, hrest⟩ := Option.rel_some_some.mp hnext
        exact .some ⟨.drop hbody, hrest⟩

/-- The block at the start of a thinned text: the same info word, a body that is thinned
with the line break before it, and a thinned rest. -/
theorem fenceAt_thinned (h : Thinned s r) :
    Option.Rel (fun b d => b.1 = d.1 ∧ Thinned (cp '\n' :: b.2.1) (cp '\n' :: d.2.1) ∧
      Thinned b.2.2 d.2.2) (fenceAt s) (fenceAt r) := by
  have hopening := opening_thinned h
  unfold fenceAt
  generalize opening s = x, opening r = y at hopening
  cases hopening with
  | none => exact .none
  | @some o q hoq =>
    have hbody := bodyFrom_thinned hoq.2 false
    rw [bodyFrom_newline, bodyFrom_newline] at hbody
    dsimp only [Option.bind_some]
    generalize bodyFrom true o.2 = x, bodyFrom true q.2 = y at hbody
    cases x with
    | none =>
      cases y with
      | none => exact .none
      | some p' => cases hbody
    | some p =>
      cases y with
      | none => cases hbody
      | some p' =>
        obtain ⟨hin, hrest⟩ := Option.rel_some_some.mp hbody
        exact .some ⟨hoq.1, hin, hrest⟩

end

/-! ### The blocks of a thinned text -/

section
variable [Host]

theorem parse_thinned {s r : Str} (h : Thinned s r) {ps : List Piece}
    (hps : parse (scan FENCE_RE s) = .ok ps) :
    ∃ qs, parse (scan FENCE_RE r) = .ok qs ∧ Echoes ps qs := by
  induction hn : s.length using Nat.strong_induction_on generalizing s r ps with
  | _ n ih =>
    subst hn
    have hrel := fenceAt_thinned h
    cases hs : fenceAt s with
    | some b =>
      rw [hs] at hrel
      cases hr : fenceAt r with
      | none => rw [hr] at hrel; cases hrel
      | some d =>
        rw [hr] at hrel
        obtain ⟨hinfo, hbody, hrest⟩ := Option.rel_some_some.mp hrel
        rw [scan_block hs] at hps
        obtain ⟨obj, hobj, ps, htail, rfl⟩ := parse_hit_eq_ok.mp hps
        obtain ⟨qs, hqs, hechoes⟩ := ih _ (fenceAt_length hs) hrest htail rfl
        have hload : looseJson ((blockOf r d).group 2) = .ok obj :=
          (looseJson_thinned hbody).symm.trans hobj
        refine ⟨.block (blockOf r d) obj :: qs, ?_, fun m obj' hm => ?_⟩
        · rw [scan_block hr]
          exact parse_hit_eq_ok.mpr ⟨obj, hload, qs, hqs, rfl⟩
        · rcases List.mem_cons.mp hm with heq | hm
          · cases heq
            exact ⟨blockOf s b, List.mem_cons_self, hinfo⟩
          · obtain ⟨m', hm', hgroup⟩ := hechoes m obj' hm
            exact ⟨m', List.mem_cons_of_mem _ hm', hgroup⟩
    | none =>
      have hr : fenceAt r = none := by
        rw [hs] at hrel
        generalize fenceAt r = y at hrel
        cases hrel
        rfl
      cases h with
      | nil => exact ⟨ps, hps, fun m obj hm => ⟨m, hm, rfl⟩⟩
      | @keep c s r h =>
        rw [scan_char hs] at hps
        obtain ⟨ps, htail, rfl⟩ := parse_skip_eq_ok.mp hps
        obtain ⟨qs, hqs, hechoes⟩ := ih _ (by simp) h htail rfl
        refine ⟨.text c :: qs, ?_, fun m obj hm => ?_⟩
        · rw [scan_char hr]
          exact parse_skip_eq_ok.mpr ⟨qs, hqs, rfl⟩
        · obtain ⟨m', hm', hgroup⟩ := hechoes m obj (by simpa using hm)
          exact ⟨m', List.mem_cons_of_mem _ hm', hgroup⟩
      | drop h =>
        rw [scan_char hs] at hps
        obtain ⟨ps, htail, rfl⟩ := parse_skip_eq_ok.mp hps
        obtain ⟨qs, hqs, hechoes⟩ := ih _ (by simp) h htail rfl
        refine ⟨qs, hqs, fun m obj hm => ?_⟩
        obtain ⟨m', hm', hgroup⟩ := hechoes m obj hm
        exact ⟨m', List.mem_cons_of_mem _ hm', hgroup⟩

/-- An extractor that thins the prose, if it does anything to it, and strips it. -/
theorem leavesNone_of_tidied {β : Type} {k : Mark} {extract : Str → Except LoadError (Str × β)}
    {nothing : β} (tidy : Str → Str) (g : Option Dict → β) (htidy : ∀ s, Thinned s (tidy s))
    (hextract : ∀ t, extract t = (cut k t).map fun r =>
      if r.2 = [] then (strip t, nothing) else (strip (tidy r.1), g (single r.2))) :
    LeavesNone k extract nothing := by
  intro t p x h hseam
  rw [hextract] at h
  obtain ⟨r, hr, hp⟩ := map_eq_ok.mp h
  obtain ⟨ps, hps, rfl⟩ := map_eq_ok.mp hr
  have hprose : ∃ s, Thinned (prose k ps) s ∧ strip s = p := by
    dsimp only at hp
    split_ifs at hp with hnone
    · exact ⟨t, prose_of_found_nil hps hnone ▸ .refl t, (Prod.mk.inj hp).1⟩
    · exact ⟨tidy (prose k ps), htidy _, (Prod.mk.inj hp).1⟩
  obtain ⟨s, hs, rfl⟩ := hprose
  obtain ⟨rs, hrs, hthinned⟩ := parse_thinned hs (parse_prose hps (hseam ps hps))
  obtain ⟨qs, hqs, hstripped⟩ := parse_strip hrs
  obtain ⟨hfree, hcut⟩ := cut_of_echoes hqs (hthinned.trans hstripped)
  refine ⟨hfree, fun hunmixed => ?_⟩
  obtain ⟨q, hq⟩ := hcut (hunmixed ps hps)
  rw [hextract, hq, Except.map, if_pos rfl, strip_strip]

/-- No extractor leaves a block with its info word in the prose, and none finds anything
there again unless the text had blocks of both kinds. -/
theorem extracted_once :
    LeavesNone Sidecar.MARK Sidecar.extract none ∧
    LeavesNone DebateLedger.MARK DebateLedger.extract none ∧
    LeavesNone FalsifyLedger.MARK FalsifyLedger.extract none ∧
    LeavesNone Verify.MARK Verify.extract ([], false) := by
  refine ⟨?_, ?_, ?_, ?_⟩
  · exact leavesNone_of_tidied id (Option.map Sidecar.normalize) Thinned.refl fun t => rfl
  · exact leavesNone_of_tidied id id Thinned.refl fun t => rfl
  · exact leavesNone_of_tidied id id Thinned.refl fun t => rfl
  · exact leavesNone_of_tidied Verify.collapse Verify.readBlock thinned_collapse fun t => rfl

end

/-! ### A prose that stays as it is, and two that do not -/

theorem of_parsed [Host] {t : Str} {f : List Piece → Bool}
    (h : (parse (scan FENCE_RE t)).toOption.all f = true) :
    ∀ ps, parse (scan FENCE_RE t) = .ok ps → f ps = true := by
  intro ps hps
  rw [hps] at h
  exact h

def twoBlocks : Str :=
  txt "Yes.\n```json-sidecar\n\x7b\x7d\n```\n```py\nx\n```\n```json-sidecar\n[1,]\n```\n"

theorem extracted_once_two :
    letI := Host.ascii
    Sidecar.extract twoBlocks = .ok (txt "Yes.\n\n```py\nx\n```", none) ∧
      Sidecar.extract (txt "Yes.\n\n```py\nx\n```") =
        .ok (txt "Yes.\n\n```py\nx\n```", none) := by
  let _ := Host.ascii
  have hextract : Sidecar.extract twoBlocks = .ok (txt "Yes.\n\n```py\nx\n```", none) := by
    decide +kernel
  have hseam : Seamless Sidecar.MARK twoBlocks :=
    of_parsed (f := fun ps => seamless (Sidecar.MARK.candidate ps) ps) (by decide +kernel)
  have hunmixed : Unmixed Sidecar.MARK twoBlocks := fun ps hps => by
    simpa using of_parsed (f := fun ps => !mixed Sidecar.MARK ps) (by decide +kernel) ps hps
  exact ⟨hextract, (extracted_once.1 _ _ _ hextract hseam).2 hunmixed⟩

/-- A block with the key alone stays beside one with the info word, and is found in the
prose. And two halves of an opening line, with a block between them, become one. -/
theorem prose_extracted_again :
    letI := Host.ascii
    let keyed := txt "```json\n\x7b\"sidecar_version\": 1\x7d\n```"
    let fenced := txt "```json-sidecar\n\x7b\x7d\n```"
    Sidecar.extract (fenced ++ keyed) = .ok (keyed, some ⟨none, none, []⟩) ∧
      Sidecar.extract keyed = .ok ([], some ⟨none, none, []⟩) ∧
      Sidecar.extract (txt "```json-" ++ fenced ++ txt "sidecar\n\x7b\x7d\n```") =
        .ok (fenced, some ⟨none, none, []⟩) ∧
      Sidecar.extract fenced = .ok ([], some ⟨none, none, []⟩) := by
  decide +kernel

end AskFable.Extract

import AskFable.Guard.Matches
import AskFable.Python.Splitlines

/-!
# Invisible characters cannot hide a term

Whatever marks and format characters are put into an ASCII text, folding gives the text back. The
check then says what it said, except that it lets a blank prompt pass before it folds it.
-/
namespace AskFable.Guard
open AskFable.Text AskFable.Python AskFable.Regex

variable {u : Unicode}

/-- What the Unicode tables say of ASCII characters and of the stripped categories. -/
structure Standard (u : Unicode) : Prop where
  ascii_category : ∀ c, isAscii c = true → stripped u c = false
  ascii_decomposition : ∀ c, isAscii c = true → u.decomposition c = [c]
  ascii_combining : ∀ c, isAscii c = true → u.combining c = 0
  ascii_composite : ∀ l c, isAscii c = true → u.composite l c = none
  stripped_decomposition : ∀ c, stripped u c = true → ∀ d ∈ u.decomposition c, stripped u d = true

variable (u) in
/-- The second text is the first with `Mn`, `Me` and `Cf` characters put in. -/
inductive Inserted : Str → Str → Prop
  | nil : Inserted [] []
  | keep (c : Cp) {s t : Str} : Inserted s t → Inserted (c :: s) (c :: t)
  | insert {c : Cp} {s t : Str} : stripped u c = true → Inserted s t → Inserted s (c :: t)

theorem Inserted.sublist {s t : Str} (h : Inserted u s t) : s.Sublist t := by
  induction h with
  | nil => exact List.Sublist.refl _
  | keep c _ ih => exact ih.cons_cons c
  | insert _ _ ih => exact ih.cons _

/-! ### Folding -/

theorem within_ascii {ranges : List (ℕ × ℕ)} (h : ∀ r ∈ ranges, 128 ≤ r.1) {c : Cp}
    (hc : isAscii c = true) : within ranges c = false := by
  rw [isAscii, decide_eq_true_eq] at hc
  rw [within, List.any_eq_false]
  intro r hr
  have hlow := h r hr
  simp only [Bool.and_eq_true, decide_eq_true_eq, not_and]
  omega

theorem translate_ascii {c : Cp} (hc : isAscii c = true) : translate c = c := by
  have hkeys : CONFUSABLES.all (fun p => !isAscii p.1) = true := by decide
  have hnone : CONFUSABLES.lookup c = none := by
    rw [List.lookup_eq_none_iff]
    intro p hp
    rw [bne_iff_ne]
    rintro rfl
    have hkey := List.all_eq_true.mp hkeys p hp
    rw [hc] at hkey
    cases hkey
  rw [translate, hnone, Option.getD_none]

variable (u) in
/-- What folding keeps of the decomposed text. -/
def kept (c : Cp) : Bool := !within INVISIBLE c && !within COMBINING c && !stripped u c

theorem kept_ascii (hu : Standard u) {c : Cp} (hc : isAscii c = true) : kept u c = true := by
  have hinvisible : within INVISIBLE c = false := within_ascii (by decide) hc
  have hcombining : within COMBINING c = false := within_ascii (by decide) hc
  rw [kept, hinvisible, hcombining, hu.ascii_category c hc]
  rfl

theorem kept_stripped {c : Cp} (hc : stripped u c = true) : kept u c = false := by
  rw [kept, hc, Bool.not_true, Bool.and_false]

/-- Of the decomposed text only the characters of the first text are kept. -/
theorem filter_decomposed (hu : Standard u) {s t : Str} (hs : ∀ c ∈ s, isAscii c = true)
    (h : Inserted u s t) : (t.flatMap u.decomposition).filter (kept u) = s := by
  induction h with
  | nil => rfl
  | keep c _ ih =>
    rw [List.forall_mem_cons] at hs
    rw [List.flatMap_cons, hu.ascii_decomposition c hs.1, List.filter_append, ih hs.2,
      List.filter_singleton, kept_ascii hu hs.1]
    rfl
  | @insert c s t hc _ ih =>
    have hnone : (u.decomposition c).filter (kept u) = [] := by
      rw [List.filter_eq_nil_iff]
      intro d hd
      rw [kept_stripped (hu.stripped_decomposition c hc d hd)]
      exact Bool.false_ne_true
    rw [List.flatMap_cons, List.filter_append, hnone, ih hs, List.nil_append]

/-- In the decomposed text the characters that are kept are starters. -/
theorem combining_decomposed (hu : Standard u) {s t : Str} (hs : ∀ c ∈ s, isAscii c = true)
    (h : Inserted u s t) :
    ∀ d ∈ t.flatMap u.decomposition, kept u d = true → u.combining d = 0 := by
  induction h with
  | nil => simp
  | keep c _ ih =>
    rw [List.forall_mem_cons] at hs
    intro d hd hkept
    rw [List.flatMap_cons, hu.ascii_decomposition c hs.1, List.mem_append,
      List.mem_singleton] at hd
    rcases hd with rfl | hd
    · exact hu.ascii_combining d hs.1
    · exact ih hs.2 d hd hkept
  | @insert c s t hc _ ih =>
    intro d hd hkept
    rw [List.flatMap_cons, List.mem_append] at hd
    rcases hd with hd | hd
    · rw [kept_stripped (hu.stripped_decomposition c hc d hd)] at hkept
      cases hkept
    · exact ih hs d hd hkept

theorem nfkc_ascii (hu : Standard u) {s : Str} (hs : ∀ c ∈ s, isAscii c = true) :
    u.nfkc s = s := by
  have hflat : s.flatMap u.decomposition = s := by
    rw [List.flatMap_congr fun c hc => hu.ascii_decomposition c (hs c hc), List.flatMap_singleton']
  rw [Unicode.nfkc, Unicode.nfkd, hflat,
    Unicode.reorderFrom_nil fun c hc => hu.ascii_combining c (hs c hc),
    Unicode.composeFrom_starters fun c hc =>
      ⟨hu.ascii_combining c (hs c hc), fun l => hu.ascii_composite l c (hs c hc)⟩]
  rfl

/-- Folding leaves of the text what was there before the insertions. -/
theorem fold_inserted (hu : Standard u) {s t : Str} (hs : ∀ c ∈ s, isAscii c = true)
    (h : Inserted u s t) : fold u t = s := by
  rw [fold]
  split_ifs with hascii
  · -- an ASCII text has nothing put in
    rw [List.all_eq_true] at hascii
    clear hs
    induction h with
    | nil => rfl
    | keep c _ ih => rw [ih fun d hd => hascii d (List.mem_cons_of_mem c hd)]
    | @insert c s t hc _ _ =>
      rw [hu.ascii_category c (hascii c List.mem_cons_self)] at hc
      cases hc
  · have hkept : (((u.nfkd t).filter fun c => !within INVISIBLE c).filter
        fun c => !within COMBINING c).filter (fun c => !stripped u c) = s := by
      rw [List.filter_filter, List.filter_filter]
      calc (u.nfkd t).filter (fun c => !stripped u c && !within COMBINING c && !within INVISIBLE c)
          = (u.nfkd t).filter (kept u) := by
            refine List.filter_congr fun c _ => ?_
            rw [kept]
            ac_rfl
        _ = (t.flatMap u.decomposition).filter (kept u) :=
            Unicode.filter_reorderFrom [] _ (combining_decomposed hu hs h) (by simp)
        _ = s := filter_decomposed hu hs h
    dsimp only
    rw [hkept, nfkc_ascii hu hs]
    exact (List.map_congr_left fun c hc => translate_ascii (hs c hc)).trans (List.map_id s)

/-! ### Blank prompts -/

theorem Inserted.not_blank {s t : Str} (h : Inserted u s t) (hs : strip s ≠ []) : strip t ≠ [] := by
  obtain ⟨c, hc, hspace⟩ := (shows_iff s).mp (by simpa [shows] using hs)
  simpa [shows] using (shows_iff t).mpr ⟨c, h.sublist.subset hc, hspace⟩

/-- Only the word `e` has a form that matches a blank text. -/
theorem word_of_blank (hspace : ∀ c d, isSpace c = false → u.caseless d = u.caseless c →
    isSpace d = false) {word v : Str} (hne : word ≠ []) (hword : ∀ c ∈ word, isSpace c = false)
    (hv : ∀ c ∈ v, isSpace c = true) (h : Accepts (inflect u word) v) : word = txt "e" := by
  have hliteral {w x : Str} (hw : ∀ c ∈ w, isSpace c = false) (hx : x <+: v)
      (h : Accepts (literal u w) x) : w = [] := by
    cases accepts_literal h with
    | nil => rfl
    | @cons c d w x hcd _ =>
      have hd := hspace c d (hw c List.mem_cons_self) hcd
      rw [hv d (hx.subset List.mem_cons_self)] at hd
      cases hd
  unfold inflect at h
  split_ifs at h with he
  · obtain ⟨x, y, hx, -, rfl⟩ := accepts_seq.mp h
    obtain ⟨w, rfl⟩ := List.getLast?_eq_some_iff.mp he
    rw [List.dropLast_concat] at hx
    rw [hliteral (fun c hc => hword c (List.mem_append_left _ hc)) (List.prefix_append x y) hx]
    rfl
  · obtain ⟨x, y, hx, -, rfl⟩ := accepts_seq.mp h
    exact absurd (hliteral hword (List.prefix_append x y) hx) hne

/-- The offense pattern matches in a blank prompt only if a term of the operator has no word but
`e`. -/
theorem term_of_blank (hspace : ∀ c d, isSpace c = false → u.caseless d = u.caseless c →
    isSpace d = false) {deny allow : List Str} {s : Str} (hs : ∀ c ∈ s, isSpace c = true)
    (h : search u (pattern u deny) (scrub u (allowPattern u allow) s) = true) :
    ∃ term ∈ deny, ∀ word ∈ split term, word = txt "e" := by
  have hscrub : ∀ c ∈ scrub u (allowPattern u allow) s, isSpace c = true := by
    unfold scrub
    split
    · exact hs
    · rename_i body _
      intro c hc
      obtain ⟨piece, hpiece, rfl⟩ := List.mem_map.mp hc
      cases piece with
      | cut => exact (by decide : isSpace (cp ' ') = true)
      | kept i d =>
        refine hs d ?_
        rw [← piecesFrom_text (m := bounded u body) bounded_reaches [] s]
        exact List.mem_flatMap.mpr ⟨_, hpiece, List.mem_singleton_self d⟩
  obtain ⟨before, w, after, htext, hoccurs⟩ := (search_iff (plain_pattern deny)).mp h
  have hw : ∀ c ∈ w, isSpace c = true := by
    intro c hc
    refine hscrub c ?_
    rw [htext]
    exact List.mem_append_left _ (List.mem_append_right _ hc)
  obtain ⟨a, ha, haccepts⟩ := accepts_alts.mp hoccurs.accepts
  obtain ⟨term, hterm, rfl⟩ := List.mem_map.mp ha
  have hwords : ∀ word ∈ split term, word = txt "e" := by
    intro word hword
    obtain ⟨v, hv, hin⟩ := exists_of_accepts_seqs haccepts _
      (mem_intersperse WORD_SEP (List.mem_map_of_mem hword))
    obtain ⟨hne, hchars⟩ := mem_split hword
    exact word_of_blank hspace hne hchars (fun c hc => hw c (hin.subset hc)) hv
  have hbundled : ∀ term ∈ OFFENSE_TERMS, ¬∀ word ∈ split term, word = txt "e" := by
    decide +kernel
  rcases List.mem_append.mp hterm with hterm | hterm
  · exact absurd hwords (hbundled term hterm)
  · exact ⟨term, hterm, hwords⟩

/-- The check of a text with insertions says what it says of the text without them, unless only
the first of the two is let pass as blank and the offense pattern matches in it. -/
theorem check_inserted_iff (hu : Standard u) {s t : Str} (hs : ∀ c ∈ s, isAscii c = true)
    (h : Inserted u s t) (deny allow : List Str) :
    checkDenylist u deny allow t = checkDenylist u deny allow s ↔
      strip s ≠ [] ∨ strip t = [] ∨
        search u (pattern u deny) (scrub u (allowPattern u allow) s) = false := by
  have hfold : fold u s = s := by rw [fold, if_pos (List.all_eq_true.mpr hs)]
  rw [checkDenylist, checkDenylist, checkWith, checkWith, fold_inserted hu hs h, hfold]
  by_cases hblank : strip s = []
  · by_cases hblank' : strip t = []
    · simp [hblank, hblank']
    · simp [hblank, hblank']
  · simp [hblank, h.not_blank hblank]

/-- Tables with an accent, a format character and one composed letter. -/
def accents : Unicode where
  category c := if c.val = 0x200B then .cf else if c.val = 0x301 then .mn else .lo
  decomposition c := if c.val = 0xE9 then [cp 'e', 0x301] else [c]
  combining c := if c.val = 0x301 then 230 else 0
  composite a b := if a = cp 'e' ∧ b.val = 0x301 then some 0xE9 else none
  caseless := lowerAscii
  caseless_ascii _ _ := rfl

theorem accents_standard : Standard accents := by
  have hascii {c : Cp} (hc : isAscii c = true) : c.val < 128 := by simpa [isAscii] using hc
  refine ⟨fun c hc => ?_, fun c hc => ?_, fun c hc => ?_, fun l c hc => ?_, fun c hc d hd => ?_⟩
  · have hlt := hascii hc
    have hzero : ¬c.val = 0x200B := by omega
    have hacute : ¬c.val = 0x301 := by omega
    rw [stripped, accents]
    simp only [hzero, hacute, if_false]
    decide
  · exact if_neg (by have := hascii hc; omega)
  · exact if_neg (by have := hascii hc; omega)
  · exact if_neg (by have := hascii hc; omega)
  · have hne : ¬c.val = 0xE9 := by
      intro heq
      rw [stripped, accents] at hc
      simp only [heq] at hc
      revert hc
      decide
    rw [accents] at hd
    simp only [hne, if_false, List.mem_singleton] at hd
    exact hd ▸ hc

theorem check_inserted_iff_accent :
    checkDenylist accents [txt "peel"] [] (txt "pe" ++ 0x301 :: 0x200B :: txt "el") =
      checkDenylist accents [txt "peel"] [] (txt "peel") :=
  (check_inserted_iff accents_standard (s := txt "peel") (List.all_eq_true.mp (by decide))
    (.keep _ (.keep _ (.insert (by decide) (.insert (by decide) (.keep _ (.keep _ .nil))))))
    [txt "peel"] []).mpr (.inl (by decide))

/-- A zero-width space hides that a prompt is blank. -/
theorem blank_unseen :
    Standard accents ∧ Inserted accents [] [0x200B] ∧
      checkDenylist accents [txt "e"] [] [] = (true, []) ∧
      checkDenylist accents [txt "e"] [] [0x200B] = (false, txt "offensive-security content") :=
  ⟨accents_standard, .insert (by decide) .nil, by decide +kernel, by decide +kernel⟩

end AskFable.Guard

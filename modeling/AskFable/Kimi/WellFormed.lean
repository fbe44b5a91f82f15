import AskFable.Kimi.Render

/-!
# When the generated config is well formed

What the claim on `render_config` asks of its output, and the condition on the operator's config
under which it comes true: that the header pattern, going over the lines, reads them as they are
meant, and that no line that stays is cut or collides with the lines that are put around it.
-/
namespace AskFable.Kimi
open AskFable.Text AskFable.Select

/-- No line that stays has a line boundary of `str.splitlines` in it. -/
def Config.Uncut (cfg : Config) : Prop :=
  ∀ l ∈ cfg.lines, l.removed = false → ∀ c ∈ l.text, isBreak c = false

/-- The generated config declares `default_permission_mode` and the table `thinking` once, has no
line of what it removes, and has every other line, uncut, in order and in its table: the lines
before the operator's open no table. -/
structure WellFormed (cfg : Config) (effort : Str) : Prop where
  kept : cfg.body = cfg.pieces.filter fun p => !p.line.removed
  whole : cfg.Uncut
  placed : placesFrom none (cfg.body.map (·.line)) = cfg.body.map (·.line.table)
  mode : ((cfg.output effort).countP fun p => p.line.declaresMode) = 1
  thinking : ((cfg.output effort).countP fun p => p.line.declaresThinking) = 1

/-- As the pattern reads the lines up to each, a line that is to go comes under `thinking`, or
begins as one of the two keys does with no other table entered; and a line that stays does not
come under `thinking`, and begins so only where another table has been entered. -/
structure ReadsRight (cfg : Config) : Prop where
  goes : ∀ before p after, cfg.pieces = before ++ p :: after → p.line.removed = true →
    under ((before ++ [p]).map Piece.text) = some THINKING ∨
      assignsOurs p.text = true ∧ entered ((before ++ [p]).map Piece.text) = false
  stays : ∀ before p after, cfg.pieces = before ++ p :: after → p.line.removed = false →
    under ((before ++ [p]).map Piece.text) ≠ some THINKING ∧
      (assignsOurs p.text = true → entered ((before ++ [p]).map Piece.text) = true)

/-- The passes drop what is to go and nothing else exactly where the pattern reads it right. -/
theorem body_eq_iff (cfg : Config) :
    (cfg.body = cfg.pieces.filter fun p => !p.line.removed) ↔ ReadsRight cfg := by
  have hkeeps (before : List Piece) (p : Piece) :
      (overlay.comap Piece.text).keeps
        ((before ++ [p]).foldl (overlay.comap Piece.text).step (false, false, false)) p =
      (under ((before ++ [p]).map Piece.text) != some THINKING &&
        (entered ((before ++ [p]).map Piece.text) || !assignsOurs p.text)) := by
    have h := overlay_keeps (before.map Piece.text) p.text
    rw [← List.map_singleton, ← List.map_append, List.foldl_map] at h
    exact h
  rw [Config.body, Loop.run_eq_filter_iff]
  simp only [hkeeps]
  constructor
  · intro h
    refine ⟨fun before p after hp hremoved => ?_, fun before p after hp hremoved => ?_⟩
    · have hp := h before p after hp
      simp only [hremoved, Bool.not_true, Bool.and_eq_false_iff, bne_eq_false_iff_eq,
        Bool.or_eq_false_iff, Bool.not_eq_false'] at hp
      exact hp.imp id And.symm
    · have hp := h before p after hp
      simp only [hremoved, Bool.not_false, Bool.and_eq_true, bne_iff_ne, Bool.or_eq_true,
        Bool.not_eq_true'] at hp
      exact ⟨hp.1, fun hassigns => hp.2.resolve_right (by simp [hassigns])⟩
  · rintro ⟨hgoes, hstays⟩ before p after hp
    cases hremoved : p.line.removed with
    | true =>
      simp only [Bool.not_true, Bool.and_eq_false_iff, bne_eq_false_iff_eq, Bool.or_eq_false_iff,
        Bool.not_eq_false']
      exact (hgoes before p after hp hremoved).imp id And.symm
    | false =>
      obtain ⟨hunder, hentered⟩ := hstays before p after hp hremoved
      simp only [Bool.not_false, Bool.and_eq_true, bne_iff_ne, Bool.or_eq_true, Bool.not_eq_true']
      refine ⟨hunder, ?_⟩
      cases hassigns : assignsOurs p.text with
      | true => exact .inl (hentered hassigns)
      | false => exact .inr rfl

/-! ### Where the lines stand -/

/-- Items stand in the table they follow. -/
theorem placesFrom_items {table : Option (List Str)} {ls : List Line}
    (h : ∀ l ∈ ls, l.table = table ∧ ∀ names, l.role ≠ .header names) (rest : List Line) :
    placesFrom table (ls ++ rest) = ls.map (·.table) ++ placesFrom table rest := by
  induction ls with
  | nil => rfl
  | cons l ls ih =>
    obtain ⟨⟨htable, hrole⟩, hrest⟩ := List.forall_mem_cons.mp h
    have hstands : l.stands table = table := by
      unfold Line.stands
      split
      · exact absurd ‹_› (hrole _)
      · rfl
    rw [List.cons_append, placesFrom, hstands, ih hrest, List.map_cons, htable]
    rfl

theorem placesFrom_header {table : Option (List Str)} {l : Line} {names : List Str}
    (h : l.role = .header names) (rest : List Line) :
    placesFrom table (l :: rest) = some names :: placesFrom (some names) rest := by
  have hstands : l.stands table = some names := by rw [Line.stands, h]
  rw [placesFrom, hstands]

theorem Item.lines_spec {table : Option (List Str)} {item : Item} {l : Line}
    (h : l ∈ item.lines table) : l.table = table ∧ ∀ names, l.role ≠ .header names := by
  cases item with
  | remark t =>
    obtain rfl := List.mem_singleton.mp h
    exact ⟨rfl, by simp⟩
  | entry e =>
    rcases List.mem_cons.mp h with rfl | h
    · exact ⟨rfl, by simp⟩
    · obtain ⟨row, -, rfl⟩ := List.mem_map.mp h
      exact ⟨rfl, by simp⟩

/-- Only headers have the role, and stand in their own table. -/
theorem header_of_mem {cfg : Config} {l : Line} (hl : l ∈ cfg.lines) {names : List Str}
    (hrole : l.role = .header names) :
    l.table = some names ∧ ∃ t ∈ cfg.tables, t.header.key.names = names := by
  rcases List.mem_append.mp hl with hl | hl
  · obtain ⟨item, -, hl⟩ := List.mem_flatMap.mp hl
    exact absurd hrole ((Item.lines_spec hl).2 names)
  · obtain ⟨t, ht, hl⟩ := List.mem_flatMap.mp hl
    rcases List.mem_cons.mp hl with rfl | hl
    · obtain rfl := Role.header.inj hrole
      exact ⟨rfl, t, ht, rfl⟩
    · obtain ⟨item, -, hl⟩ := List.mem_flatMap.mp hl
      exact absurd hrole ((Item.lines_spec hl).2 names)

/-- The line stays, and is not blank. -/
def Line.stays (l : Line) : Bool := !l.removed && shows l.text

theorem shows_of_mem {s : Str} {c : Cp} (h : c ∈ s) (hc : isSpace c = false) : shows s = true := by
  by_contra hblank
  have hstrip : strip s = [] := by simpa [shows] using hblank
  obtain ⟨a, b, hs, ha, hb⟩ := strip_eq s
  rw [hs, hstrip, List.append_nil] at h
  rcases List.mem_append.mp h with h | h
  · rw [ha c h] at hc
    cases hc
  · rw [hb c h] at hc
    cases hc

theorem Header.shows_text (h : Header) : shows h.text = true := by
  refine shows_of_mem (c := cp '[') ?_ (by decide)
  unfold Header.text
  cases h.array <;> simp [txt]

/-- A line of a table is removed with the table. -/
theorem Line.removed_of_table {l : Line} {names : List Str} (h : l.table = some names) :
    l.removed = (names == [THINKING]) := by
  simp [Line.removed, h]

theorem Table.lines_spec {t : Table} {l : Line} (h : l ∈ t.lines) :
    l.table = some t.header.key.names := by
  rcases List.mem_cons.mp h with rfl | h
  · rfl
  · obtain ⟨item, -, h⟩ := List.mem_flatMap.mp h
    exact (Item.lines_spec h).1

theorem placesFrom_tables (tables : List Table) (table : Option (List Str)) :
    placesFrom table ((tables.flatMap Table.lines).filter Line.stays) =
      ((tables.flatMap Table.lines).filter Line.stays).map (·.table) := by
  induction tables generalizing table with
  | nil => rfl
  | cons t ts ih =>
    rw [List.flatMap_cons, List.filter_append]
    by_cases hthinking : t.header.key.names = [THINKING]
    · have hnone : t.lines.filter Line.stays = [] := by
        refine List.filter_eq_nil_iff.mpr fun l hl => ?_
        simp [Line.stays, Line.removed_of_table (Table.lines_spec hl), hthinking]
      rw [hnone]
      exact ih table
    · have hheader : Line.stays
          ⟨t.header.text, .header t.header.key.names, some t.header.key.names⟩ = true := by
        simp [Line.stays, Line.removed, hthinking, t.header.shows_text]
      rw [Table.lines, List.filter_cons_of_pos hheader, List.cons_append, placesFrom_header rfl,
        placesFrom_items, ih]
      · simp
      · intro l hl
        obtain ⟨item, -, hl⟩ := List.mem_flatMap.mp (List.mem_of_mem_filter hl)
        exact Item.lines_spec hl

theorem Config.placesFrom_lines (cfg : Config) :
    placesFrom none (cfg.lines.filter Line.stays) =
      (cfg.lines.filter Line.stays).map (·.table) := by
  rw [Config.lines, List.filter_append, placesFrom_items, placesFrom_tables, List.map_append]
  intro l hl
  obtain ⟨item, -, hl⟩ := List.mem_flatMap.mp (List.mem_of_mem_filter hl)
  exact Item.lines_spec hl

/-- Lines that are not cut are their own pieces. -/
theorem map_filter_pieces {ls : List Line}
    (h : ∀ l ∈ ls, l.removed = false → ∀ c ∈ l.text, isBreak c = false) :
    ((ls.flatMap Line.pieces).filter fun p => !p.line.removed).map (·.line) =
      ls.filter Line.stays := by
  induction ls with
  | nil => rfl
  | cons l ls ih =>
    obtain ⟨hl, hls⟩ := List.forall_mem_cons.mp h
    rw [List.flatMap_cons, List.filter_append, List.map_append, ih hls, Line.pieces]
    cases hremoved : l.removed with
    | true =>
      have hdropped : ((visible l.text).map fun s => (⟨s, l⟩ : Piece)).filter
          (fun p => !p.line.removed) = [] :=
        List.filter_eq_nil_iff.mpr fun p hp => by
          obtain ⟨s, -, rfl⟩ := List.mem_map.mp hp
          simp [hremoved]
      rw [hdropped, List.filter_cons_of_neg (by simp [Line.stays, hremoved])]
      rfl
    | false =>
      rw [visible_unbroken (hl hremoved)]
      cases hshows : shows l.text <;> simp [Line.stays, hremoved, hshows]

/-! ### How often something is declared -/

section
variable {f : Line → Bool}

theorem countP_pieces_none (ls : List Line) (h : ∀ l ∈ ls, f l = false) :
    ((ls.flatMap Line.pieces).countP fun p => f p.line) = 0 := by
  refine List.countP_eq_zero.mpr fun p hp => ?_
  obtain ⟨l, hl, hp⟩ := List.mem_flatMap.mp hp
  obtain ⟨s, -, rfl⟩ := List.mem_map.mp hp
  simp [h l hl]

theorem countP_pieces_once {a b : List Line} {l : Line} (ha : ∀ l ∈ a, f l = false)
    (hb : ∀ l ∈ b, f l = false) (hl : f l = true) (hone : (visible l.text).length = 1) :
    (((a ++ l :: b).flatMap Line.pieces).countP fun p => f p.line) = 1 := by
  have hpieces : (l.pieces.countP fun p => f p.line) = 1 := by
    rw [List.countP_eq_length.mpr fun p hp => ?_, Line.pieces, List.length_map, hone]
    obtain ⟨s, -, rfl⟩ := List.mem_map.mp hp
    exact hl
  rw [List.flatMap_append, List.flatMap_cons, List.countP_append, List.countP_append,
    countP_pieces_none a ha, countP_pieces_none b hb, hpieces]

end

/-- The lines around the operator's declare each of the two once. -/
theorem countP_output (cfg : Config) (effort : Str) :
    ((cfg.output effort).countP fun p => p.line.declaresMode) =
        1 + cfg.body.countP (fun p => p.line.declaresMode) ∧
      ((cfg.output effort).countP fun p => p.line.declaresThinking) =
        cfg.body.countP (fun p => p.line.declaresThinking) + 1 := by
  have hall {f : Line → Bool} {ls : List Line} (h : ls.all (fun l => !f l) = true) :
      ∀ l ∈ ls, f l = false := fun l hl => by simpa using List.all_eq_true.mp h l hl
  simp only [Config.output, List.countP_append]
  generalize cfg.body.getLast?.bind (·.line.table) = last
  constructor
  · rw [countP_pieces_none (tailLines last effort) (hall rfl)]
    have hhead := countP_pieces_once (f := Line.declaresMode) (a := headLines.take 3) (b := [])
      (l := ⟨txt "default_permission_mode = \"manual\"", .key [ MODE], none⟩) (hall rfl) (hall rfl)
      (by decide) (by decide +kernel)
    rw [← hhead]
    rfl
  · rw [countP_pieces_none headLines (hall (by decide))]
    have htail := countP_pieces_once (f := Line.declaresThinking)
      (a := (tailLines last effort).take 6) (b := (tailLines last effort).drop 7)
      (l := ⟨txt "[thinking]", .header [THINKING], some [THINKING]⟩) (hall rfl) (hall rfl)
      (by decide) (by decide)
    rw [Nat.zero_add, ← htail]
    rfl

/-- Among the lines that stay only a table's header can declare `default_permission_mode`. -/
theorem declares_of_stays {cfg : Config} {l : Line} (hl : l ∈ cfg.lines) (h : l.removed = false) :
    l.declaresThinking = false ∧ (l.declaresMode = true → ∃ t ∈ cfg.tables,
      t.header.key.names.head? = some MODE) := by
  cases hrole : l.role with
  | remark => simp [Line.declaresThinking, Line.declaresMode, hrole]
  | row names => simp [Line.declaresThinking, Line.declaresMode, hrole]
  | key names =>
    cases htable : l.table with
    | none =>
      simp only [Line.removed, htable, hrole, Bool.or_eq_false_iff] at h
      simp [Line.declaresThinking, Line.declaresMode, hrole, h.1, h.2]
    | some table => simp [Line.declaresThinking, Line.declaresMode, hrole, htable]
  | header names =>
    obtain ⟨htable, t, ht, rfl⟩ := header_of_mem hl hrole
    rw [Line.removed_of_table htable] at h
    simp only [Line.declaresThinking, Line.declaresMode, hrole]
    exact ⟨h, fun hmode => ⟨t, ht, by simpa using hmode⟩⟩

/-- The generated config is the lines that `output` lists; and it is well formed exactly where the
pattern reads the operator's lines right, no line that stays is cut, and no table is named
`default_permission_mode` or lies in one of that name. -/
theorem renderConfig_wellFormed_iff (cfg : Config) (effort : Str) :
    visible (renderConfig cfg.text effort) = (cfg.output effort).map Piece.text ∧
      (WellFormed cfg effort ↔ ReadsRight cfg ∧ cfg.Uncut ∧
        ∀ t ∈ cfg.tables, t.header.key.names.head? ≠ some MODE) := by
  refine ⟨visible_renderConfig cfg effort, ?_⟩
  rw [← body_eq_iff]
  obtain ⟨hmode, hthinking⟩ := countP_output cfg effort
  have hmem {p : Piece} : p ∈ cfg.pieces.filter (fun p => !p.line.removed) →
      p.line ∈ cfg.lines ∧ p.line.removed = false := by
    intro hp
    obtain ⟨hp, hremoved⟩ := List.mem_filter.mp hp
    obtain ⟨l, hl, hp⟩ := List.mem_flatMap.mp hp
    obtain ⟨s, -, rfl⟩ := List.mem_map.mp hp
    exact ⟨hl, by simpa using hremoved⟩
  constructor
  · intro h
    refine ⟨h.kept, h.whole, fun t ht hnamed => ?_⟩
    -- the header of such a table stays, and declares the key once more
    let l : Line := ⟨t.header.text, .header t.header.key.names, some t.header.key.names⟩
    have hl : l ∈ cfg.lines :=
      List.mem_append_right _ (List.mem_flatMap.mpr ⟨t, ht, List.mem_cons_self⟩)
    have hstays : l.removed = false := by
      rw [Line.removed_of_table rfl]
      refine beq_eq_false_iff_ne.mpr fun hthinking => ?_
      rw [hthinking] at hnamed
      exact absurd hnamed (by decide)
    have hpiece : (⟨l.text, l⟩ : Piece) ∈ cfg.body := by
      rw [h.kept]
      refine List.mem_filter.mpr ⟨List.mem_flatMap.mpr ⟨l, hl, ?_⟩, by simp [hstays]⟩
      refine List.mem_map.mpr ⟨l.text, ?_, rfl⟩
      rw [visible_unbroken (h.whole l hl hstays)]
      exact List.mem_filter.mpr ⟨List.mem_singleton_self _, t.header.shows_text⟩
    have hpos : 0 < cfg.body.countP fun p => p.line.declaresMode :=
      List.countP_pos_iff.mpr ⟨_, hpiece, by simp [Line.declaresMode, l, hnamed]⟩
    have := h.mode
    omega
  · rintro ⟨hkept, hwhole, hnamed⟩
    have hdeclares {p : Piece} (hp : p ∈ cfg.body) := declares_of_stays
      (hmem (hkept ▸ hp)).1 (hmem (hkept ▸ hp)).2
    refine ⟨hkept, hwhole, ?_, ?_, ?_⟩
    · have hlines : cfg.body.map (·.line) = cfg.lines.filter Line.stays := by
        rw [hkept]
        exact map_filter_pieces hwhole
      rw [hlines, cfg.placesFrom_lines, ← hlines, List.map_map]
      rfl
    · rw [hmode, List.countP_eq_zero.mpr fun p hp hdeclared => ?_]
      obtain ⟨t, ht, hname⟩ := (hdeclares hp).2 hdeclared
      exact hnamed t ht hname
    · rw [hthinking, List.countP_eq_zero.mpr fun p hp => ?_]
      rw [(hdeclares hp).1]
      exact Bool.false_ne_true

/-- The last row of an array in the table `thinking`. -/
def nestedRow : Config :=
  let plain : Tail := ⟨[], none, rfl, by simp⟩
  let key (s : String) (h : txt s ≠ [] ∧ (txt s).all isBare = true) : Key := ⟨.bare (txt s) h, []⟩
  { top := []
    tables := [
      { header := ⟨[], false, [], key "thinking" (by decide), [], plain, rfl⟩
        items := [.entry ⟨[], key "budgets" (by decide), txt " ", txt " [",
          [txt "  [1, 2]", txt "]"], by decide, by decide, by decide⟩] }] }

theorem nested_row_ends_thinking : ¬∀ (cfg : Config) (effort : Str), WellFormed cfg effort := by
  intro h
  have hkept := (h nestedRow (txt "high")).kept
  revert hkept
  decide +kernel

end AskFable.Kimi

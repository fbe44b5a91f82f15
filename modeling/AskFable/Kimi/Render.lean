import AskFable.General.Select
import AskFable.Kimi.Toml
import AskFable.Python.Splitlines

/-!
# The generated config

`render_config` drops the operator's `thinking` and `default_permission_mode` line by line and
puts its own around the rest. Each of its passes is a loop that keeps some of the lines; the three
in a row are one loop, whose state is how the header pattern reads the lines so far. So the
generated config is right exactly when the pattern reads the lines as they are meant.
-/
namespace AskFable.Kimi
open AskFable.Text AskFable.Select

/-! ### `render_config` -/

def isBracket (c : Cp) : Bool := c == cp '[' || c == cp ']'

def isQuote (c : Cp) : Bool := c == cp '"' || c == cp '\''

/-- `_TABLE_HEADER_RE` on a line without a line feed: what its group holds. -/
def headerName (line : Str) : Option Str :=
  match line with
  | [] => none
  | c :: rest =>
    if c = cp '[' then
      let rest := if rest.head? = some (cp '[') then rest.drop 1 else rest
      let name := rest.takeWhile fun c => !isBracket c
      let rest := rest.dropWhile fun c => !isBracket c
      if name ≠ [] ∧ rest.head? = some (cp ']') then
        let rest := rest.drop 1
        let rest := if rest.head? = some (cp ']') then rest.drop 1 else rest
        let rest := rest.dropWhile isSpace
        if rest = [] ∨ rest.head? = some (cp '#') then some name else none
      else none
    else none

/-- `_table_name`. -/
def tableName (raw : Str) : Str :=
  (txt ".").intercalate ((raw.splitOn (cp '.')).map fun part =>
    ((strip part).dropWhile isQuote).rdropWhile isQuote)

/-- `re.match(rf"{re.escape(key)}\s*=", line)`. -/
def assigns (key line : Str) : Bool :=
  key.isPrefixOf line && ((line.drop key.length).dropWhile isSpace).head? == some (cp '=')

/-- The loop of `_strip_table`, whose state is `skipping`. -/
def tableLoop (name : Str) : Loop Bool Str where
  step skipping line :=
    match headerName (strip line) with
    | some raw => tableName raw == name
    | none => skipping
  keeps skipping _ := !skipping

/-- The loop of `_strip_bare_key`, whose state is `in_table`. -/
def keyLoop (key : Str) : Loop Bool Str where
  step inTable line := inTable || (headerName (strip line)).isSome
  keeps inTable line := inTable || !assigns key (strip line)

/-- `_strip_table`. -/
def stripTable (text name : Str) : Str :=
  (txt "\n").intercalate ((tableLoop name).run false (splitlines text))

/-- `_strip_bare_key`. -/
def stripBareKey (text key : Str) : Str :=
  (txt "\n").intercalate ((keyLoop key).run false (splitlines text))

/-- A line of the template, with its line feed. -/
def line (s : String) : Str := txt s ++ [cp '\n']

def renderConfig (base effort : Str) : Str :=
  let body := stripBareKey (stripTable base THINKING) MODE
  let body := stripBareKey body THINKING
  line "# Generated by ask_fable — do not edit; rewritten on every call." ++
  line "# A sandboxed KIMI_CODE_HOME that runs `kimi -p` as a pure text reasoning" ++
  line "# oracle. Bare keys must precede the first [table], hence the prepend." ++
  line "default_permission_mode = \"manual\"" ++ line "" ++
  body ++ line "" ++ line "" ++
  line "# `*` is the permission parser's match-any tool name, so the model gets no" ++
  line "# tools and must answer from the prompt instead of reading the filesystem." ++
  line "[[permission.rules]]" ++
  line "decision = \"deny\"" ++
  line "scope = \"user\"" ++
  line "pattern = \"*\"" ++ line "" ++
  line "[thinking]" ++
  line "enabled = true" ++
  txt "effort = \"" ++ effort ++ line "\""

/-! ### What the lines of the output come from -/

/-- A line as the code sees it, not blank, with the line of the file it is in. -/
structure Piece where
  text : Str
  line : Line
  deriving DecidableEq

/-- `str.splitlines` may cut a line of the file. -/
def Line.pieces (l : Line) : List Piece := (visible l.text).map (⟨·, l⟩)

def Config.pieces (cfg : Config) : List Piece := cfg.lines.flatMap Line.pieces

/-- The three passes in one. -/
def overlay : Loop (Bool × Bool × Bool) Str :=
  (tableLoop THINKING).andThen ((keyLoop MODE).andThen (keyLoop THINKING))

/-- What of the operator's config is left. -/
def Config.body (cfg : Config) : List Piece :=
  (overlay.comap Piece.text).run (false, false, false) cfg.pieces

/-- The lines before the operator's. -/
def headLines : List Line :=
  [⟨txt "# Generated by ask_fable — do not edit; rewritten on every call.", .remark, none⟩,
    ⟨txt "# A sandboxed KIMI_CODE_HOME that runs `kimi -p` as a pure text reasoning", .remark, none⟩,
    ⟨txt "# oracle. Bare keys must precede the first [table], hence the prepend.", .remark, none⟩,
    ⟨txt "default_permission_mode = \"manual\"", .key [ MODE], none⟩]

/-- The lines after them; the comments stand in whatever table the operator's end with. -/
def tailLines (last : Option (List Str)) (effort : Str) : List Line :=
  let rules := [txt "permission", txt "rules"]
  [⟨txt "# `*` is the permission parser's match-any tool name, so the model gets no", .remark, last⟩,
    ⟨txt "# tools and must answer from the prompt instead of reading the filesystem.", .remark, last⟩,
    ⟨txt "[[permission.rules]]", .header rules, some rules⟩,
    ⟨txt "decision = \"deny\"", .key [txt "decision"], some rules⟩,
    ⟨txt "scope = \"user\"", .key [txt "scope"], some rules⟩,
    ⟨txt "pattern = \"*\"", .key [txt "pattern"], some rules⟩,
    ⟨txt "[thinking]", .header [THINKING], some [THINKING]⟩,
    ⟨txt "enabled = true", .key [txt "enabled"], some [THINKING]⟩,
    ⟨txt "effort = \"" ++ effort ++ txt "\"", .key [txt "effort"], some [THINKING]⟩]

/-- The generated config, but for its blank lines. -/
def Config.output (cfg : Config) (effort : Str) : List Piece :=
  headLines.flatMap Line.pieces ++ cfg.body ++
    (tailLines (cfg.body.getLast?.bind (·.line.table)) effort).flatMap Line.pieces

theorem tableLoop_blank (name : Str) (skipping : Bool) {line : Str} (h : shows line = false) :
    (tableLoop name).step skipping line = skipping := by
  have hstrip : strip line = [] := by simpa [shows] using h
  simp [tableLoop, hstrip, headerName]

theorem keyLoop_blank (key : Str) (inTable : Bool) {line : Str} (h : shows line = false) :
    (keyLoop key).step inTable line = inTable := by
  have hstrip : strip line = [] := by simpa [shows] using h
  simp [keyLoop, hstrip, headerName]

/-- A pass that splits a text, keeps some lines and joins them keeps of the lines that show what
its loop keeps of them. -/
theorem visible_pass {σ : Type*} (L : Loop σ Str)
    (hblank : ∀ s line, shows line = false → L.step s line = s) (s : σ) (text : Str) :
    visible ((txt "\n").intercalate (L.run s (splitlines text))) = L.run s (visible text) := by
  rw [visible_intercalate, flatMap_visible, L.filter_run_comm hblank]
  · rfl
  · intro l hl
    exact mem_linesFrom (by simp) ((L.run_sublist s _).subset hl)

/-- What shows of the operator's config after the three passes. -/
theorem visible_body (base : Str) :
    visible (stripBareKey (stripBareKey (stripTable base THINKING) MODE) THINKING) =
      overlay.run (false, false, false) (visible base) := by
  have htable := visible_pass (tableLoop THINKING) (fun s _ h => tableLoop_blank THINKING s h) false
  have hkey (key : Str) := visible_pass (keyLoop key) (fun s _ h => keyLoop_blank key s h) false
  rw [stripBareKey, hkey, stripBareKey, hkey, stripTable, htable, Loop.run_run, Loop.run_run]
  rfl

theorem map_pieces (l : Line) : l.pieces.map Piece.text = visible l.text := by
  rw [Line.pieces, List.map_map]
  exact List.map_id _

theorem map_flatMap_pieces (ls : List Line) :
    (ls.flatMap Line.pieces).map Piece.text = ls.flatMap fun l => visible l.text := by
  simp only [List.map_flatMap, map_pieces]

theorem Config.map_body (cfg : Config) : cfg.body.map Piece.text =
    overlay.run (false, false, false) (visible cfg.text) := by
  rw [Config.body, ← Loop.run_map, Config.pieces, map_flatMap_pieces, Config.text,
    visible_intercalate, List.flatMap_map]

/-- The output of `render_config`, line by line. -/
theorem visible_renderConfig (cfg : Config) (effort : Str) :
    visible (renderConfig cfg.text effort) = (cfg.output effort).map Piece.text := by
  have hfeed (s : String) (rest : Str) :
      visible (line s ++ rest) = visible (txt s) ++ visible rest := by
    rw [line, List.append_assoc]
    exact visible_append (txt s) rest
  have hbody (body rest : Str) :
      visible (body ++ (line "" ++ rest)) = visible body ++ visible rest := by
    rw [line]
    exact visible_append body rest
  have heffort : visible (txt "effort = \"" ++ (effort ++ line "\"")) =
      visible (txt "effort = \"" ++ (effort ++ txt "\"")) := by
    have hend := visible_append (txt "effort = \"" ++ (effort ++ txt "\"")) []
    simp only [List.append_assoc] at hend
    rw [line]
    exact hend.trans (List.append_nil _)
  have hnil : visible (txt "") = [] := rfl
  unfold renderConfig
  simp only [List.append_assoc, hfeed, hbody, heffort, hnil, List.nil_append]
  rw [visible_body, ← cfg.map_body]
  simp only [Config.output, List.map_append, map_pieces, List.append_assoc, headLines, tailLines,
    List.flatMap_cons, List.flatMap_nil, List.append_nil]

/-! ### How the header pattern reads the lines -/

/-- The table whose header the pattern takes the line for. -/
def reads (line : Str) : Option Str := (headerName (strip line)).map tableName

/-- The table that the lines come under by the last of them that is taken for a header. -/
def under (lines : List Str) : Option Str := (lines.filterMap reads).getLast?

/-- A line is taken for the header of a table other than `thinking`. -/
def entered (lines : List Str) : Bool := lines.any fun line => (reads line).any (· != THINKING)

/-- The line begins as one of the two keys' does. -/
def assignsOurs (line : Str) : Bool := assigns MODE (strip line) || assigns THINKING (strip line)

theorem under_append (lines : List Str) (line : Str) :
    under (lines ++ [line]) = (reads line).or (under lines) := by
  rw [under, List.filterMap_append, List.getLast?_append]
  cases hreads : reads line <;> simp [hreads, under]

theorem entered_append (lines : List Str) (line : Str) :
    entered (lines ++ [line]) = (entered lines || (reads line).any (· != THINKING)) := by
  simp [entered]

/-- The two key loops are in a table at once: a header is none of their keys. -/
theorem overlay_step (skipping inTable : Bool) (line : Str) :
    overlay.step (skipping, inTable, inTable) line =
      (((reads line).map (· == THINKING)).getD skipping,
        inTable || (reads line).any (· != THINKING),
        inTable || (reads line).any (· != THINKING)) := by
  rcases Option.eq_none_or_eq_some (headerName (strip line)) with hheader | ⟨raw, hheader⟩
  · cases skipping <;> simp [overlay, Loop.andThen, tableLoop, keyLoop, reads, hheader]
  · by_cases hname : tableName raw = THINKING
    · simp [overlay, Loop.andThen, tableLoop, keyLoop, reads, hheader, hname]
    · simp [overlay, Loop.andThen, tableLoop, keyLoop, reads, hheader, hname]

theorem overlay_state (lines : List Str) :
    lines.foldl overlay.step (false, false, false) =
      (under lines == some THINKING, entered lines, entered lines) := by
  induction lines using List.reverseRecOn with
  | nil => rfl
  | append_singleton lines line ih =>
    rw [List.foldl_append, List.foldl_cons, List.foldl_nil, ih, overlay_step, under_append,
      entered_append]
    cases reads line <;> rfl

/-- What is left of the operator's config, by how the pattern reads the lines up to each. -/
theorem overlay_keeps (before : List Str) (line : Str) :
    overlay.keeps ((before ++ [line]).foldl overlay.step (false, false, false)) line =
      (under (before ++ [line]) != some THINKING &&
        (entered (before ++ [line]) || !assignsOurs line)) := by
  rw [overlay_state]
  simp only [overlay, Loop.andThen, tableLoop, keyLoop, assignsOurs]
  cases entered (before ++ [line]) <;> simp [bne]

end AskFable.Kimi

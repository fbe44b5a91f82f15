import AskFable.Pack.Slice
import AskFable.Python.Splitlines
import Mathlib.Algebra.Order.Group.Nat

/-!
# Index chunks are quotable ranges

A text is indexed in overlapping windows of lines, each cut into pieces. The windows are counted
in the lines of the text as it is split here; a range is read in the lines of the file's bytes.
Both count the same lines, so a piece can be quoted by its range.
-/
namespace AskFable.Index
open AskFable.Text AskFable.Python AskFable.Python.Bytes AskFable.Python.Utf8 AskFable.Pack

def CHUNK_LINES : ℕ := 80

def CHUNK_OVERLAP : ℕ := 16

def CHUNK_MAX_CHARS : ℕ := 4000

/-- `line.removesuffix("\r")`. -/
def removeCr (line : Str) : Str :=
  if line.getLast? = some (cp '\r') then line.dropLast else line

/-- The lines of a text. A trailing newline ends the last line; it does not start one. -/
def textLines (text : Str) : List Str :=
  let lines := text.splitOn (cp '\n')
  (if lines.getLast? = some [] then lines.dropLast else lines).map removeCr

/-- How many lines a window takes that has taken `n`, of `chars` characters. -/
def windowLines (n chars : ℕ) : List Str → ℕ
  | [] => n
  | line :: ahead =>
    if n < CHUNK_LINES ∧ chars < CHUNK_MAX_CHARS then
      windowLines (n + 1) (chars + line.length + 1) ahead
    else n

/-- `(start_line, end_line, text)`. -/
structure Chunk where
  start : ℕ
  stop : ℕ
  piece : Str
  deriving DecidableEq

/-- The slices `body[k : k + CHUNK_MAX_CHARS]` for `k` in `range(0, len(body), CHUNK_MAX_CHARS)`. -/
def cuts (body : Str) : List Str :=
  (List.range ((body.length + CHUNK_MAX_CHARS - 1) / CHUNK_MAX_CHARS)).map fun k =>
    (body.drop (CHUNK_MAX_CHARS * k)).take CHUNK_MAX_CHARS

/-- `"\n".join(lines)`. -/
def joined (lines : List Str) : Str := [cp '\n'].intercalate lines

theorem windowLines_cons (n chars : ℕ) (line : Str) (ahead : List Str) :
    windowLines n chars (line :: ahead) =
      if n < CHUNK_LINES ∧ chars < CHUNK_MAX_CHARS then
        windowLines (n + 1) (chars + line.length + 1) ahead
      else n := rfl

theorem le_windowLines (n chars : ℕ) (ahead : List Str) : n ≤ windowLines n chars ahead := by
  induction ahead generalizing n chars with
  | nil => exact Nat.le_refl n
  | cons line ahead ih =>
    rw [windowLines_cons]
    split_ifs
    · exact (Nat.le_succ n).trans (ih _ _)
    · exact Nat.le_refl n

theorem windowLines_le (n chars : ℕ) (ahead : List Str) :
    windowLines n chars ahead ≤ n + ahead.length := by
  induction ahead generalizing n chars with
  | nil => exact Nat.le_refl n
  | cons line ahead ih =>
    rw [windowLines_cons, List.length_cons]
    split_ifs
    · have hle := ih (n + 1) (chars + line.length + 1)
      omega
    · omega

theorem windowLines_le_max {n : ℕ} (hn : n ≤ CHUNK_LINES) (chars : ℕ) (ahead : List Str) :
    windowLines n chars ahead ≤ CHUNK_LINES := by
  induction ahead generalizing n chars with
  | nil => exact hn
  | cons line ahead ih =>
    rw [windowLines_cons]
    split_ifs with h
    · exact ih h.1 _
    · exact hn

/-- A window takes a line when one is left. -/
theorem windowLines_pos {ahead : List Str} (h : ahead ≠ []) : 0 < windowLines 0 0 ahead := by
  obtain ⟨line, ahead, rfl⟩ := List.exists_cons_of_ne_nil h
  rw [windowLines_cons, if_pos (by decide)]
  exact Nat.lt_of_lt_of_le Nat.one_pos (le_windowLines _ _ _)

/-- The line after the window that begins at line `i`. -/
def windowStop (lines : List Str) (i : ℕ) : ℕ := i + windowLines 0 0 (lines.drop i)

theorem lt_windowStop {lines : List Str} {i : ℕ} (h : i < lines.length) :
    i < windowStop lines i := by
  have hpos : 0 < windowLines 0 0 (lines.drop i) :=
    windowLines_pos fun hnil => absurd (List.drop_eq_nil_iff.mp hnil) (Nat.not_le.mpr h)
  unfold windowStop
  omega

/-- The chunks of the windows from line `i` on. -/
def chunksFrom (lines : List Str) (i : ℕ) : List Chunk :=
  if i < lines.length then
    let stop := windowStop lines i
    let body := strip (joined ((lines.take stop).drop i))
    let out := if body = [] then [] else ((cuts body).filter shows).map (⟨i + 1, stop, ·⟩)
    if lines.length ≤ stop then out
    else out ++ chunksFrom lines (max (i + 1) (stop - CHUNK_OVERLAP))
  else []
termination_by lines.length - i
decreasing_by omega

def chunksFor (text : Str) : List Chunk := chunksFrom (textLines text) 0

/-! ### Pieces -/

theorem flatten_cuts (body : Str) : (cuts body).flatten = body := by
  have htake : ∀ m, ((List.range m).map fun k =>
      (body.drop (CHUNK_MAX_CHARS * k)).take CHUNK_MAX_CHARS).flatten =
        body.take (CHUNK_MAX_CHARS * m) := by
    intro m
    induction m with
    | zero => simp
    | succ m ih =>
      rw [List.range_succ, List.map_append, List.flatten_append, ih, Nat.mul_succ, List.take_add]
      simp
  rw [cuts, htake, List.take_of_length_le]
  unfold CHUNK_MAX_CHARS
  omega

theorem length_of_cuts {body cut : Str} (h : cut ∈ cuts body) : cut.length ≤ CHUNK_MAX_CHARS := by
  obtain ⟨k, -, rfl⟩ := List.mem_map.mp h
  rw [List.length_take]
  exact Nat.min_le_left _ _

/-! ### Windows -/

/-- A window and the pieces its text is cut into. -/
structure Window where
  start : ℕ
  stop : ℕ
  cuts : List Str

/-- The pieces that are not blank, under the window's range. -/
def Window.chunks (w : Window) : List Chunk := (w.cuts.filter shows).map (⟨w.start, w.stop, ·⟩)

/-- A window of some lines, counted from 1. -/
structure Window.Of (lines : List Str) (w : Window) : Prop where
  start_pos : 1 ≤ w.start
  ordered : w.start ≤ w.stop
  stop_le : w.stop ≤ lines.length
  narrow : w.stop - w.start < CHUNK_LINES
  short : ∀ cut ∈ w.cuts, cut.length ≤ CHUNK_MAX_CHARS
  flatten : w.cuts.flatten = strip (joined ((lines.take w.stop).drop (w.start - 1)))

/-- The window that begins at line `i`. -/
def windowAt (lines : List Str) (i : ℕ) : Window :=
  ⟨i + 1, windowStop lines i, cuts (strip (joined ((lines.take (windowStop lines i)).drop i)))⟩

theorem windowAt_of {lines : List Str} {i : ℕ} (h : i < lines.length) :
    (windowAt lines i).Of lines := by
  have hstop : windowStop lines i - i = windowLines 0 0 (lines.drop i) := by simp [windowStop]
  have hlt := lt_windowStop h
  have hleft := windowLines_le 0 0 (lines.drop i)
  have hmax : windowLines 0 0 (lines.drop i) ≤ CHUNK_LINES := windowLines_le_max (Nat.zero_le _) _ _
  rw [List.length_drop] at hleft
  refine ⟨Nat.le_add_left 1 i, hlt, ?_, ?_, fun cut hcut => length_of_cuts hcut, flatten_cuts _⟩
  · dsimp only [windowAt]
    omega
  · dsimp only [windowAt]
    omega

theorem chunksFrom_of_lt {lines : List Str} {i : ℕ} (h : i < lines.length) :
    chunksFrom lines i = (windowAt lines i).chunks ++
      if lines.length ≤ windowStop lines i then []
      else chunksFrom lines (max (i + 1) (windowStop lines i - CHUNK_OVERLAP)) := by
  have hout : (if strip (joined ((lines.take (windowStop lines i)).drop i)) = [] then []
      else ((cuts (strip (joined ((lines.take (windowStop lines i)).drop i)))).filter shows).map
        fun piece => (⟨i + 1, windowStop lines i, piece⟩ : Chunk)) = (windowAt lines i).chunks := by
    split_ifs with hnil
    · simp [Window.chunks, windowAt, hnil, cuts, CHUNK_MAX_CHARS]
    · rfl
  rw [chunksFrom, if_pos h]
  dsimp only
  rw [hout]
  split_ifs
  · rw [List.append_nil]
  · rfl

/-- The chunks are those of windows that begin further and further on and leave no line out. -/
theorem chunksFrom_windows (lines : List Str) (i : ℕ) :
    ∃ ws : List Window, chunksFrom lines i = ws.flatMap Window.chunks ∧
      (∀ w ∈ ws, i < w.start ∧ w.Of lines) ∧ (ws.map Window.start).Pairwise (· < ·) ∧
      ∀ k, i ≤ k → k < lines.length → ∃ w ∈ ws, w.start ≤ k + 1 ∧ k + 1 ≤ w.stop := by
  induction hn : lines.length - i using Nat.strongRecOn generalizing i with
  | _ n ih =>
    by_cases h : i < lines.length
    swap
    · refine ⟨[], ?_, by simp, by simp, fun k hle hlt => absurd (hle.trans_lt hlt) h⟩
      rw [chunksFrom, if_neg h, List.flatMap_nil]
    have hstop := lt_windowStop h
    by_cases hlast : lines.length ≤ windowStop lines i
    · refine ⟨[windowAt lines i], ?_, ?_, List.pairwise_singleton _ _, fun k hle hlt => ?_⟩
      · rw [chunksFrom_of_lt h, if_pos hlast, List.append_nil, List.flatMap_singleton]
      · intro w hw
        obtain rfl := List.mem_singleton.mp hw
        exact ⟨Nat.lt_succ_self i, windowAt_of h⟩
      · exact ⟨_, List.mem_singleton_self _, Nat.succ_le_succ hle, by dsimp only [windowAt]; omega⟩
    -- the next window begins later, and not after the line this one stops at
    have hnext : i < max (i + 1) (windowStop lines i - CHUNK_OVERLAP) := by omega
    obtain ⟨ws, hchunks, hof, hstarts, hcover⟩ :=
      ih (lines.length - max (i + 1) (windowStop lines i - CHUNK_OVERLAP)) (by omega) _ rfl
    refine ⟨windowAt lines i :: ws, ?_, ?_, ?_, fun k hle hlt => ?_⟩
    · rw [chunksFrom_of_lt h, if_neg hlast, hchunks, List.flatMap_cons]
    · refine List.forall_mem_cons.mpr ⟨⟨Nat.lt_succ_self i, windowAt_of h⟩, fun w hw => ?_⟩
      exact ⟨hnext.trans (hof w hw).1, (hof w hw).2⟩
    · rw [List.map_cons, List.pairwise_cons]
      refine ⟨?_, hstarts⟩
      intro start hstart
      obtain ⟨w, hw, rfl⟩ := List.mem_map.mp hstart
      exact Nat.lt_of_le_of_lt hnext (hof w hw).1
    · by_cases hk : k < windowStop lines i
      · exact ⟨_, List.mem_cons_self, Nat.succ_le_succ hle, hk⟩
      · obtain ⟨w, hw, hrange⟩ := hcover k (by omega) hlt
        exact ⟨w, List.mem_cons_of_mem _ hw, hrange⟩

/-! ### The text of a range -/

/-- `text.replace("\r\n", "\n")`. -/
def uncr : Str → Str
  | [] => []
  | c :: s => if c = cp '\r' ∧ s.head? = some (cp '\n') then uncr s else c :: uncr s

/-- The lines `start` to `stop` of a text, counted from 1. -/
def textRange (start stop : ℕ) (text : Str) : Str :=
  (((Lines.lines (cp '\n') text).take stop).drop (start - 1)).flatten

/-- A line as the index has it. -/
def bare (line : Str) : Str :=
  removeCr (if line.getLast? = some (cp '\n') then line.dropLast else line)

theorem bare_ended (x : Str) : bare (x ++ [cp '\n']) = removeCr x := by
  simp [bare]

theorem bare_unbroken {x : Str} (h : cp '\n' ∉ x) : bare x = removeCr x := by
  rw [bare, if_neg fun hlast => h (List.mem_of_getLast? hlast)]

theorem textLines_eq (text : Str) : textLines text = (Lines.lines (cp '\n') text).map bare := by
  induction hn : text.length using Nat.strongRecOn generalizing text with
  | _ n ih =>
    by_cases hne : text = []
    · subst hne
      rfl
    rcases Lines.exists_line (cp '\n') hne with ⟨hnl, hlines⟩ | ⟨x, r, rfl, hx, hlines⟩
    · simp [textLines, hlines, List.splitOn_eq_singleton hnl, hne, bare_unbroken hnl]
    · have hr := ih r.length (by simp at hn; omega) r rfl
      obtain ⟨y, ys, hsplit⟩ := List.exists_cons_of_ne_nil (List.splitOn_ne_nil (cp '\n') r)
      rw [hlines, List.map_cons, bare_ended, ← hr, textLines, textLines,
        List.splitOn_append_cons_self_of_not_mem hx, hsplit]
      simp only [List.getLast?_cons_cons, List.dropLast_cons_cons]
      split_ifs <;> rfl

/-- A carriage return that ends a line is blank. -/
theorem exists_removeCr (x : Str) : ∃ b, (∀ c ∈ b, isSpace c = true) ∧ x = removeCr x ++ b := by
  unfold removeCr
  split_ifs with h
  · refine ⟨[cp '\r'], List.forall_mem_singleton.mpr (by decide), ?_⟩
    obtain ⟨hne, hlast⟩ := List.getLast?_eq_some_iff.mp h
    simp [hlast]
  · exact ⟨[], by simp, by simp⟩

theorem uncr_cons (c : Cp) (s : Str) : uncr (c :: s) =
    if c = cp '\r' ∧ s.head? = some (cp '\n') then uncr s else c :: uncr s := rfl

theorem uncr_unbroken {x : Str} (h : cp '\n' ∉ x) : uncr x = x := by
  induction x with
  | nil => rfl
  | cons c x ih =>
    rw [List.mem_cons, not_or] at h
    have hhead : ¬(c = cp '\r' ∧ x.head? = some (cp '\n')) := fun hboth =>
      h.2 (List.mem_of_head? hboth.2)
    rw [uncr_cons, if_neg hhead, ih h.2]

theorem uncr_ended {x : Str} (h : cp '\n' ∉ x) (r : Str) :
    uncr (x ++ cp '\n' :: r) = removeCr x ++ cp '\n' :: uncr r := by
  have hnl : uncr (cp '\n' :: r) = cp '\n' :: uncr r := by
    rw [uncr_cons, if_neg fun hboth => absurd hboth.1 (by decide)]
  induction x with
  | nil => exact hnl
  | cons c x ih =>
    rw [List.mem_cons, not_or] at h
    cases x with
    | nil =>
      rw [List.singleton_append, uncr_cons, hnl]
      by_cases hc : c = cp '\r'
      · simp [removeCr, hc]
      · simp [removeCr, hc]
    | cons d x =>
      have hd : ¬d = cp '\n' := fun heq => h.2 (heq ▸ List.mem_cons_self)
      have hcr : removeCr (c :: d :: x) = c :: removeCr (d :: x) := by
        simp only [removeCr, List.getLast?_cons_cons, List.dropLast_cons_cons]
        split_ifs <;> rfl
      rw [List.cons_append, uncr_cons, if_neg (by simp [hd]), ih h.2, hcr, List.cons_append]

/-- Joining the lines again leaves out at most a blank end. -/
theorem exists_uncr (t : Str) : ∃ b, (∀ c ∈ b, isSpace c = true) ∧
    uncr t = joined ((Lines.lines (cp '\n') t).map bare) ++ b := by
  induction hn : t.length using Nat.strongRecOn generalizing t with
  | _ n ih =>
    by_cases hne : t = []
    · exact ⟨[], by simp, by simp [hne, uncr, Lines.lines, joined]⟩
    rcases Lines.exists_line (cp '\n') hne with ⟨hnl, hlines⟩ | ⟨x, r, rfl, hx, hlines⟩
    · obtain ⟨b, hb, ht⟩ := exists_removeCr t
      refine ⟨b, hb, ?_⟩
      rw [hlines, List.map_singleton, bare_unbroken hnl, uncr_unbroken hnl]
      simpa [joined, List.intercalate] using ht
    obtain ⟨b, hb, hr⟩ := ih r.length (by simp at hn; omega) r rfl
    rw [hlines, List.map_cons, bare_ended, uncr_ended hx]
    cases hrest : Lines.lines (cp '\n') r with
    | nil =>
      have hrnil : r = [] := by rw [← Lines.flatten_lines (cp '\n') r, hrest, List.flatten_nil]
      refine ⟨[cp '\n'], List.forall_mem_singleton.mpr (by decide), ?_⟩
      simp [joined, List.intercalate, hrnil, uncr]
    | cons line rest =>
      refine ⟨b, hb, ?_⟩
      rw [hr, hrest, List.map_cons, joined, joined, List.intercalate_cons_cons]
      simp

theorem textRange_lines (start stop : ℕ) (text : Str) :
    Lines.lines (cp '\n') (textRange start stop text) =
      ((Lines.lines (cp '\n') text).take stop).drop (start - 1) := by
  have htake := Lines.lines_flatten_take (cp '\n') text stop
  have hdrop := Lines.lines_flatten_drop (cp '\n')
    ((Lines.lines (cp '\n') text).take stop).flatten (start - 1)
  rwa [htake] at hdrop

/-- What a window's lines make up is the text of its range. -/
theorem strip_joined (start stop : ℕ) (text : Str) :
    strip (joined (((textLines text).take stop).drop (start - 1))) =
      strip (uncr (textRange start stop text)) := by
  obtain ⟨b, hb, huncr⟩ := exists_uncr (textRange start stop text)
  rw [huncr, strip_append_space _ hb, textRange_lines, textLines_eq, List.map_drop, List.map_take]

theorem mem_uncr {c : Cp} {s : Str} (h : c ∈ s) (hc : isSpace c = false) : c ∈ uncr s := by
  induction s with
  | nil => cases h
  | cons d s ih =>
    rw [uncr_cons]
    rcases List.mem_cons.mp h with rfl | h
    · rw [if_neg]
      · exact List.mem_cons_self
      · rintro ⟨rfl, -⟩
        revert hc
        decide
    · split_ifs
      · exact ih h
      · exact List.mem_cons_of_mem _ (ih h)

/-- A window over a line that is not blank has a piece that is not blank. -/
theorem exists_piece {start stop n : ℕ} {text line : Str} {cuts : List Str}
    (hcuts : cuts.flatten = strip (uncr (textRange start stop text)))
    (hline : (Lines.lines (cp '\n') text)[n]? = some line) (hshows : shows line = true)
    (hstart : start ≤ n + 1) (hstop : n + 1 ≤ stop) : ∃ cut ∈ cuts, shows cut = true := by
  obtain ⟨c, hc, hspace⟩ := (shows_iff line).mp hshows
  have hin : line ∈ ((Lines.lines (cp '\n') text).take stop).drop (start - 1) := by
    refine List.mem_of_getElem? (i := n - (start - 1)) ?_
    have hn : start - 1 + (n - (start - 1)) = n := by omega
    rw [List.getElem?_drop, hn, List.getElem?_take_of_lt hstop, hline]
  have hmem : c ∈ cuts.flatten := by
    rw [hcuts]
    exact mem_strip (mem_uncr (List.mem_flatten_of_mem hin hc) hspace) hspace
  obtain ⟨cut, hcut, hccut⟩ := List.mem_flatten.mp hmem
  exact ⟨cut, hcut, (shows_iff cut).mpr ⟨c, hccut, hspace⟩⟩

/-- The lines of a file's text are those of its bytes. -/
theorem lines_of_decode {data : Bytes} {text : Str} (h : decode data = some text) :
    Lines.lines 10 data = (Lines.lines (cp '\n') text).map encodePass := by
  have hnl : encodeChar (cp '\n') = [10] := by decide
  have hchar : ∀ c, c ≠ cp '\n' → encodeChar c ≠ [] ∧ (10 : Byte) ∉ encodeChar c := by
    refine fun c hc => ⟨?_, fun hmem => ?_⟩
    · unfold encodeChar
      split_ifs <;> simp
    · rcases mem_encodeChar hmem with hval | hval
      · exact hc (Fin.ext hval.symm)
      · exact absurd hval (by decide)
  rw [← encodePass_of_decode h]
  exact Lines.lines_flatMap hnl hchar text

theorem linesOf_of_decode {data : Bytes} {text : Str} (h : decode data = some text)
    (start stop : ℕ) : linesOf start stop data = encodePass (textRange start stop text) := by
  rw [linesOf, lines_of_decode h, ← List.map_take, ← List.map_drop, textRange]
  induction ((Lines.lines (cp '\n') text).take stop).drop (start - 1) with
  | nil => rfl
  | cons line ls ih => rw [List.map_cons, List.flatten_cons, ih, List.flatten_cons, encodePass_append]

/-- Every line that is not blank is in a chunk. Every chunk is a range of the lines a file of this
text is read in, and holds a piece of them. A window's pieces are cut from its stripped text, and
only blank ones are left out. -/
theorem chunks_quotable (text : Str) :
    (∀ n line, (Lines.lines (cp '\n') text)[n]? = some line → shows line = true →
      ∃ c ∈ chunksFor text, c.start ≤ n + 1 ∧ n + 1 ≤ c.stop) ∧
    (∀ data, decode data = some text →
      (∀ c ∈ chunksFor text, c.stop ≤ (Lines.lines 10 data).length) ∧
      ∀ start stop, linesOf start stop data = encodePass (textRange start stop text)) ∧
    (∀ c ∈ chunksFor text,
      (1 ≤ c.start ∧ c.start ≤ c.stop ∧ c.stop ≤ (Lines.lines (cp '\n') text).length ∧
        c.stop - c.start < CHUNK_LINES) ∧
      c.piece.length ≤ CHUNK_MAX_CHARS ∧ c.piece <:+: uncr (textRange c.start c.stop text)) ∧
    ∃ windows : List Window, chunksFor text = windows.flatMap Window.chunks ∧
      (windows.map Window.start).Pairwise (· < ·) ∧
      ∀ w ∈ windows, w.cuts.flatten = strip (uncr (textRange w.start w.stop text)) := by
  obtain ⟨ws, hchunks, hof, hstarts, hcover⟩ := chunksFrom_windows (textLines text) 0
  have hlength : (textLines text).length = (Lines.lines (cp '\n') text).length := by
    rw [textLines_eq, List.length_map]
  have hflatten : ∀ w ∈ ws, w.cuts.flatten = strip (uncr (textRange w.start w.stop text)) :=
    fun w hw => (hof w hw).2.flatten.trans (strip_joined _ _ _)
  have hmem : ∀ c, c ∈ chunksFor text ↔
      ∃ w ∈ ws, ∃ cut ∈ w.cuts, shows cut = true ∧ c = ⟨w.start, w.stop, cut⟩ := by
    intro c
    rw [chunksFor, hchunks, List.mem_flatMap]
    simp only [Window.chunks, List.mem_map, List.mem_filter, and_assoc, eq_comm]
  have hstop : ∀ c ∈ chunksFor text, c.stop ≤ (Lines.lines (cp '\n') text).length := by
    intro c hc
    obtain ⟨w, hw, cut, -, -, rfl⟩ := (hmem c).mp hc
    exact hlength ▸ (hof w hw).2.stop_le
  refine ⟨fun n line hline hshows => ?_, fun data hdata => ⟨fun c hc => ?_, ?_⟩, fun c hc => ?_,
    ws, hchunks, hstarts, hflatten⟩
  · obtain ⟨hn, -⟩ := List.getElem?_eq_some_iff.mp hline
    obtain ⟨w, hw, hstart, hend⟩ := hcover n (Nat.zero_le n) (hlength ▸ hn)
    obtain ⟨cut, hcut, hshown⟩ := exists_piece (hflatten w hw) hline hshows hstart hend
    exact ⟨⟨w.start, w.stop, cut⟩, (hmem _).mpr ⟨w, hw, cut, hcut, hshown, rfl⟩, hstart, hend⟩
  · rw [lines_of_decode hdata, List.length_map]
    exact hstop c hc
  · exact linesOf_of_decode hdata
  · have hend := hstop c hc
    obtain ⟨w, hw, cut, hcut, -, rfl⟩ := (hmem c).mp hc
    have hw' := (hof w hw).2
    refine ⟨⟨hw'.start_pos, hw'.ordered, hend, hw'.narrow⟩, hw'.short cut hcut, ?_⟩
    have hin := List.infix_of_mem_flatten hcut
    rw [hflatten w hw] at hin
    exact hin.trans <| strip_infix _

end AskFable.Index

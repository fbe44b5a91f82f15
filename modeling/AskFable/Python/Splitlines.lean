import AskFable.Python.Text

/-!
# The lines of a text

`str.splitlines` on texts that are put together of lines.
-/
namespace AskFable.Text

theorem linesFrom_nil (cr : Bool) (line : Str) :
    linesFrom cr line [] = if line = [] then [] else [line.reverse] := rfl

theorem linesFrom_cons (cr : Bool) (line : Str) (c : Cp) (rest : Str) :
    linesFrom cr line (c :: rest) =
      if cr = true ∧ c = cp '\n' then linesFrom false line rest
      else if isBreak c then line.reverse :: linesFrom (c == cp '\r') [] rest
      else linesFrom false (c :: line) rest := rfl

/-- Lines of which an empty one says nothing are those before a line feed and those after it. -/
theorem filterMap_linesFrom {β : Type*} {f : Str → Option β} (hf : f [] = none) (a b : Str)
    {cr : Bool} {line : Str} (hcr : cr = true → line = []) :
    (linesFrom cr line (a ++ cp '\n' :: b)).filterMap f =
      (linesFrom cr line a).filterMap f ++ (splitlines b).filterMap f := by
  induction a generalizing cr line with
  | nil =>
    rw [List.nil_append, linesFrom_cons, linesFrom_nil, splitlines]
    cases cr with
    | true =>
      obtain rfl := hcr rfl
      rfl
    | false =>
      have hfeed : (cp '\n' == cp '\r') = false := by decide
      rw [if_neg (by simp), if_pos (by decide), hfeed, List.filterMap_cons]
      by_cases hline : line = []
      · subst hline
        simp [hf]
      · rw [if_neg hline, List.filterMap_cons]
        cases f line.reverse <;> rfl
  | cons c a ih =>
    rw [List.cons_append, linesFrom_cons, linesFrom_cons]
    by_cases hjoined : cr = true ∧ c = cp '\n'
    · rw [if_pos hjoined, if_pos hjoined]
      exact ih fun h => nomatch h
    · rw [if_neg hjoined, if_neg hjoined]
      by_cases hbreak : isBreak c = true
      · rw [if_pos hbreak, if_pos hbreak, List.filterMap_cons, List.filterMap_cons, ih fun _ => rfl]
        cases f line.reverse <;> rfl
      · rw [if_neg hbreak, if_neg hbreak]
        exact ih fun h => nomatch h

theorem linesFrom_unbroken {line s : Str} (hs : ∀ c ∈ s, isBreak c = false) :
    linesFrom false line s = if line.reverse ++ s = [] then [] else [line.reverse ++ s] := by
  induction s generalizing line with
  | nil => simp [linesFrom_nil]
  | cons c s ih =>
    rw [linesFrom_cons, if_neg (by simp), if_neg (by simp [hs c List.mem_cons_self]),
      ih fun d hd => hs d (List.mem_cons_of_mem c hd)]
    simp

theorem splitlines_unbroken {s : Str} (hs : ∀ c ∈ s, isBreak c = false) :
    splitlines s = if s = [] then [] else [s] := linesFrom_unbroken hs

/-- No line that comes of splitting has a line boundary in it. -/
theorem mem_linesFrom {cr : Bool} {line s l : Str} (hline : ∀ c ∈ line, isBreak c = false)
    (h : l ∈ linesFrom cr line s) : ∀ c ∈ l, isBreak c = false := by
  induction s generalizing cr line with
  | nil =>
    rw [linesFrom_nil] at h
    split_ifs at h with hnil
    · nomatch h
    · rw [List.mem_singleton.mp h]
      simpa using hline
  | cons c s ih =>
    rw [linesFrom_cons] at h
    split_ifs at h with hjoined hbreak
    · exact ih hline h
    · rcases List.mem_cons.mp h with rfl | h
      · simpa using hline
      · exact ih (by simp) h
    · refine ih (List.forall_mem_cons.mpr ⟨by simpa using hbreak, hline⟩) h

/-! ### Lines that are not blank -/

/-- The line is not blank. -/
def shows (s : Str) : Bool := strip s != []

theorem mem_strip {c : Cp} {s : Str} (h : c ∈ s) (hc : isSpace c = false) : c ∈ strip s := by
  obtain ⟨a, b, heq, ha, hb⟩ := strip_eq s
  rw [heq, List.mem_append, List.mem_append] at h
  rcases h with (h | h) | h
  · exact absurd (ha c h) (by simp [hc])
  · exact h
  · exact absurd (hb c h) (by simp [hc])

theorem shows_iff (s : Str) : shows s = true ↔ ∃ c ∈ s, isSpace c = false := by
  constructor
  · intro h
    by_contra hall
    have hspace : ∀ c ∈ s, isSpace c = true := by simpa using hall
    have hnil : strip s = [] := strip_append_space [] hspace
    simp [shows, hnil] at h
  · rintro ⟨c, hc, hspace⟩
    simpa [shows] using List.ne_nil_of_mem (mem_strip hc hspace)

/-- The lines of a text that are not blank. -/
def visible (s : Str) : List Str := (splitlines s).filter shows

theorem visible_append (a b : Str) : visible (a ++ cp '\n' :: b) = visible a ++ visible b := by
  have hcr : false = true → ([] : Str) = [] := fun _ => rfl
  have h := filterMap_linesFrom (f := Option.guard shows) rfl a b hcr
  simpa only [visible, splitlines, List.filterMap_eq_filter] using h

theorem visible_intercalate (ls : List Str) :
    visible ((txt "\n").intercalate ls) = ls.flatMap visible := by
  induction ls with
  | nil => rfl
  | cons l ls ih =>
    cases ls with
    | nil => simp [List.intercalate]
    | cons l' ls =>
      have hjoin : (txt "\n").intercalate (l :: l' :: ls) =
          l ++ cp '\n' :: (txt "\n").intercalate (l' :: ls) := by
        simp [List.intercalate, txt]
      rw [hjoin, visible_append, ih]
      rfl

theorem visible_unbroken {s : Str} (hs : ∀ c ∈ s, isBreak c = false) :
    visible s = [s].filter shows := by
  rw [visible, splitlines_unbroken hs]
  split_ifs with h
  · subst h
    rfl
  · rfl

theorem flatMap_visible {ls : List Str} (h : ∀ l ∈ ls, ∀ c ∈ l, isBreak c = false) :
    ls.flatMap visible = ls.filter shows := by
  induction ls with
  | nil => rfl
  | cons l ls ih =>
    obtain ⟨hl, hls⟩ := List.forall_mem_cons.mp h
    rw [List.flatMap_cons, visible_unbroken hl, ih hls, ← List.filter_append]
    rfl

end AskFable.Text

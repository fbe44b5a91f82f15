import AskFable.Python.Regex

/-!
# Fenced blocks

The pattern all extractors scan with, and what it finds at one place: an opening line, the
shortest body that ends at a line start, and the closing ticks there.
-/
namespace AskFable.Extract
open AskFable.Text AskFable.Regex

def TICKS : Str := txt "```"

def infoChar (c : Cp) : Bool := isAlnum c || c == cp '_' || c == cp '-'

def isBlank (c : Cp) : Bool := c == cp ' ' || c == cp '\t'

/-- `_FENCE_RE`. -/
def FENCE_RE : Re := .seqs
  [.word TICKS, .group 1 (.star true (.set infoChar)), .star true (.set isBlank),
    .opt (.lit (cp '\r')), .lit (cp '\n'), .group 2 (.star false (.set fun _ => true)),
    .lineStart, .star true (.set isBlank), .word TICKS]

/-! ### The same, read off the text -/

/-- What follows a line break. -/
def lineEnd : Str → Option Str
  | [] => none
  | c :: s =>
    if c = cp '\n' then some s
    else if c = cp '\r' then
      match s with
      | d :: s => if d = cp '\n' then some s else none
      | [] => none
    else none

/-- An opening line: its info word and the text after it. -/
def opening (s : Str) : Option (Str × Str) :=
  if TICKS.isPrefixOf s then
    let r := s.drop TICKS.length
    (lineEnd ((r.dropWhile infoChar).dropWhile isBlank)).map fun rest =>
      (r.takeWhile infoChar, rest)
  else none

/-- The text after closing ticks. -/
def closing (s : Str) : Option Str :=
  let r := s.dropWhile isBlank
  if TICKS.isPrefixOf r then some (r.drop TICKS.length) else none

/-- The body up to the first closing ticks, and what follows them; `start` at a line
start. -/
def bodyFrom : Bool → Str → Option (Str × Str)
  | _, [] => none
  | start, c :: s =>
    match (if start then closing (c :: s) else none) with
    | some rest => some ([], rest)
    | none => (bodyFrom (c == cp '\n') s).map fun p => (c :: p.1, p.2)

/-- A block at the start of the text: info word, body, and the text after it. -/
def fenceAt (s : Str) : Option (Str × Str × Str) :=
  (opening s).bind fun o => (bodyFrom true o.2).map fun p => (o.1, p.1, p.2)

/-! ### The pattern finds what is read off -/

theorem drop_takeWhile (p : Cp → Bool) (s : Str) :
    s.drop (s.takeWhile p).length = s.dropWhile p := by
  induction s with
  | nil => rfl
  | cons c s ih => by_cases hc : p c = true <;> simp [hc, ih]

def atLineStart (pre : Str) : Bool := pre.head?.elim true (· == cp '\n')

/-- The closing part of the pattern. -/
def CLOSE_RE : Re := .seqs [.lineStart, .star true (.set isBlank), .word TICKS]

theorem ticks_not_blank {c : Cp} (hc : isBlank c = true) (rest : Str) :
    TICKS.isPrefixOf (c :: rest) = false := by
  by_contra hpre
  rw [Bool.not_eq_false, List.isPrefixOf_iff_prefix] at hpre
  obtain ⟨rest', hrest⟩ := hpre
  obtain rfl : cp '`' = c := (List.cons.inj hrest).1
  exact absurd hc (by decide)

theorem run_close (pre post : Str) (caps : List (ℕ × Str)) :
    ((run CLOSE_RE ⟨pre, post, caps⟩).head?).map outcome =
      if atLineStart pre then (closing post).map fun rest => (rest, caps) else none := by
  have hstar := flatMap_star_greedy (p := isBlank) (k := run (.word TICKS))
    (fun pre c rest caps hc => by rw [run_word, if_neg]; simp [ticks_not_blank hc])
    ⟨pre, post, caps⟩
  have hclose : run CLOSE_RE ⟨pre, post, caps⟩ =
      (if atLineStart pre then [(⟨pre, post, caps⟩ : Pos)] else []).flatMap fun s =>
        (run (.star true (.set isBlank)) s).flatMap (run (.word TICKS)) := rfl
  rw [hclose]
  by_cases hpre : atLineStart pre = true
  · rw [if_pos hpre, if_pos hpre, List.flatMap_cons, List.flatMap_nil, List.append_nil, hstar,
      run_word]
    simp only [Pos.advance, drop_takeWhile, closing]
    split_ifs <;> simp [outcome]
  · rw [if_neg hpre, if_neg hpre]
    rfl

/-- The lazy body stops at the first closing ticks. -/
theorem run_body (start : Pos) (caps : List (ℕ × Str)) (post : Str) :
    ∀ acc pre, start.post = acc ++ post →
      ((((run (.star false (.set fun _ => true)) ⟨pre, post, caps⟩).flatMap fun t =>
          run CLOSE_RE { t with caps := (2, start.upto t) :: t.caps }).head?).map outcome) =
        (bodyFrom (atLineStart pre) post).map fun p => (p.2, (2, acc ++ p.1) :: caps) := by
  induction post with
  | nil =>
    intro acc pre _
    have hclose : closing [] = none := rfl
    rw [head?_star_lazy]
    simp only [Option.or_none, run_close, hclose, bodyFrom]
    split_ifs <;> rfl
  | cons c rest ih =>
    intro acc pre hacc
    have hupto : start.upto ⟨pre, c :: rest, caps⟩ = acc := by
      simp [Pos.upto, hacc]
    have hnext := ih (acc ++ [c]) (c :: pre) (by simp [hacc])
    have hstart : atLineStart (c :: pre) = (c == cp '\n') := rfl
    rw [head?_star_lazy, Option.map_or, run_close, hupto, bodyFrom]
    simp only [if_true]
    rw [hnext, hstart]
    by_cases hpre : atLineStart pre = true
    · simp only [hpre, if_true]
      cases closing (c :: rest) with
      | some r => simp
      | none => simp [Function.comp_def]
    · simp [hpre, Function.comp_def]

/-- The pattern past its info word and blanks. -/
def BODY_RE : Re := .seqs [.group 2 (.star false (.set fun _ => true)), .lineStart,
  .star true (.set isBlank), .word TICKS]

theorem run_bodyRe (pre post : Str) (caps : List (ℕ × Str)) :
    ((run BODY_RE ⟨pre, post, caps⟩).head?).map outcome =
      (bodyFrom (atLineStart pre) post).map fun p => (p.2, (2, p.1) :: caps) := by
  have hbody := run_body ⟨pre, post, caps⟩ caps post [] pre rfl
  have hseq : BODY_RE = .seq (.group 2 (.star false (.set fun _ => true))) CLOSE_RE := rfl
  rw [hseq, run, run, List.flatMap_map]
  exact hbody

/-- A line break, then the rest of the pattern. -/
theorem run_lineEnd (re : Re) (pre post : Str) (caps : List (ℕ × Str)) :
    ∃ pre', atLineStart pre' = true ∧
      run (.seq (.opt (.lit (cp '\r'))) (.seq (.lit (cp '\n')) re)) ⟨pre, post, caps⟩ =
        (lineEnd post).elim [] fun rest => run re ⟨pre', rest, caps⟩ := by
  have hcr : cp '\r' ≠ cp '\n' := by decide
  cases post with
  | nil => exact ⟨[], rfl, by simp [run, Re.opt, Re.lit, lineEnd]⟩
  | cons c rest =>
    by_cases hn : c = cp '\n'
    · subst hn
      refine ⟨cp '\n' :: pre, rfl, ?_⟩
      simp [run, Re.opt, Re.lit, lineEnd, Ne.symm hcr]
    · by_cases hr : c = cp '\r'
      · subst hr
        refine ⟨cp '\n' :: cp '\r' :: pre, rfl, ?_⟩
        cases rest with
        | nil => simp [run, Re.opt, Re.lit, lineEnd, hcr]
        | cons d rest =>
          by_cases hd : d = cp '\n' <;> simp [run, Re.opt, Re.lit, lineEnd, hcr, hd]
      · exact ⟨[cp '\n'], rfl, by simp [run, Re.opt, Re.lit, lineEnd, hn, hr]⟩

theorem lineEnd_blank {c : Cp} (hc : isBlank c = true ∨ infoChar c = true) (rest : Str) :
    lineEnd (c :: rest) = none := by
  have hn : c ≠ cp '\n' := by
    rintro rfl
    exact absurd hc (by decide)
  have hr : c ≠ cp '\r' := by
    rintro rfl
    exact absurd hc (by decide)
  simp [lineEnd, hn, hr]

theorem blank_not_info {c : Cp} (hc : infoChar c = true) : isBlank c = false := by
  by_contra hb
  rw [Bool.not_eq_false, isBlank, Bool.or_eq_true, beq_iff_eq, beq_iff_eq] at hb
  rcases hb with rfl | rfl
  · exact absurd hc (by decide)
  · exact absurd hc (by decide)

/-- The rest of the pattern after its info word. -/
def AFTER_INFO_RE : Re := .seqs [.star true (.set isBlank), .opt (.lit (cp '\r')),
  .lit (cp '\n'), .group 2 (.star false (.set fun _ => true)), .lineStart,
  .star true (.set isBlank), .word TICKS]

theorem run_afterInfo (pre post : Str) (caps : List (ℕ × Str)) :
    ∃ pre', atLineStart pre' = true ∧ run AFTER_INFO_RE ⟨pre, post, caps⟩ =
      (lineEnd (post.dropWhile isBlank)).elim [] fun rest => run BODY_RE ⟨pre', rest, caps⟩ := by
  have hstar := flatMap_star_greedy (p := isBlank)
    (k := run (.seq (.opt (.lit (cp '\r'))) (.seq (.lit (cp '\n')) BODY_RE)))
    (fun pre c rest caps hc => by
      obtain ⟨pre', -, hrun⟩ := run_lineEnd BODY_RE pre (c :: rest) caps
      rw [hrun, lineEnd_blank (.inl hc)]
      rfl)
    ⟨pre, post, caps⟩
  obtain ⟨pre', hpre, hrun⟩ := run_lineEnd BODY_RE ((post.takeWhile isBlank).reverse ++ pre)
    (post.dropWhile isBlank) caps
  refine ⟨pre', hpre, ?_⟩
  rw [← hrun, ← drop_takeWhile]
  exact hstar

theorem run_fence (pre post : Str) :
    ((run FENCE_RE ⟨pre, post, []⟩).head?).map outcome =
      (fenceAt post).map fun b => (b.2.2, [(2, b.2.1), (1, b.1)]) := by
  have hseq : FENCE_RE = .seq (.word TICKS)
      (.seq (.group 1 (.star true (.set infoChar))) AFTER_INFO_RE) := rfl
  rw [hseq, run, run_word]
  simp only [fenceAt, opening]
  by_cases hticks : TICKS.isPrefixOf post = true
  swap
  · simp [hticks]
  rw [if_pos hticks, if_pos hticks, List.flatMap_cons, List.flatMap_nil, List.append_nil, run, run,
    List.flatMap_map]
  -- the info word is followed by a blank or a line break, so it is taken whole
  have hstar := flatMap_star_greedy (p := infoChar)
    (k := fun t => run AFTER_INFO_RE { t with
      caps := (1, ((⟨pre, post, []⟩ : Pos).advance TICKS).upto t) :: t.caps })
    (fun pre c rest caps hc => by
      obtain ⟨pre', -, hrun⟩ := run_afterInfo pre (c :: rest) ((1,
        ((⟨pre, post, []⟩ : Pos).advance TICKS).upto ⟨pre, c :: rest, caps⟩) :: caps)
      rw [List.dropWhile_cons_of_neg (by simp [blank_not_info hc]), lineEnd_blank (.inr hc)] at hrun
      exact hrun)
    ((⟨pre, post, []⟩ : Pos).advance TICKS)
  obtain ⟨pre', hpre, hrun⟩ := run_afterInfo
    (((post.drop TICKS.length).takeWhile infoChar).reverse ++ (TICKS.reverse ++ pre))
    ((post.drop TICKS.length).dropWhile infoChar) [(1, (post.drop TICKS.length).takeWhile infoChar)]
  have hupto : ((⟨pre, post, []⟩ : Pos).advance TICKS).upto
      (((⟨pre, post, []⟩ : Pos).advance TICKS).advance
        ((post.drop TICKS.length).takeWhile infoChar)) =
      (post.drop TICKS.length).takeWhile infoChar :=
    Pos.upto_advance (List.takeWhile_prefix infoChar)
  have hk : ((run (.star true (.set infoChar)) ((⟨pre, post, []⟩ : Pos).advance TICKS)).flatMap
      fun t => run AFTER_INFO_RE { t with
        caps := (1, ((⟨pre, post, []⟩ : Pos).advance TICKS).upto t) :: t.caps }) =
      run AFTER_INFO_RE
        ⟨((post.drop TICKS.length).takeWhile infoChar).reverse ++ (TICKS.reverse ++ pre),
          (post.drop TICKS.length).dropWhile infoChar,
          [(1, (post.drop TICKS.length).takeWhile infoChar)]⟩ := by
    rw [hstar, ← drop_takeWhile]
    exact congrArg (fun w => run AFTER_INFO_RE ⟨_, _, [(1, w)]⟩) hupto
  rw [hk, hrun]
  cases lineEnd (((post.drop TICKS.length).dropWhile infoChar).dropWhile isBlank) with
  | none => rfl
  | some rest =>
    rw [Option.elim_some, run_bodyRe, hpre]
    simp [Function.comp_def]

end AskFable.Extract

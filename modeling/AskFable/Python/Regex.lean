import AskFable.Python.Text

/-!
# Backtracking regular expressions

The matcher of Python's `re`, as a list of successes: `run r s` lists every way `r`
can match at `s`, in the order a backtracking engine tries them, so the match the
engine reports is the head of the list. A position keeps the text before it, since
`^`, `\b` and a lookbehind read the previous code point.
-/
namespace AskFable.Regex
open AskFable.Text

inductive Re
  | empty
  /-- One code point of a class. -/
  | set (p : Cp → Bool)
  | seq (a b : Re)
  | alt (a b : Re)
  | star (greedy : Bool) (a : Re)
  /-- A capturing group. -/
  | group (n : ℕ) (a : Re)
  /-- A back reference to group `n`. -/
  | same (n : ℕ)
  /-- `^` under `MULTILINE`. -/
  | lineStart
  /-- `\b`, for the given word class. -/
  | edge (word : Cp → Bool)
  /-- `(?<![…])`, one code point of lookbehind. -/
  | notAfter (p : Cp → Bool)

/-- A place in the subject: the text before it, reversed, the text after it, and
the groups captured so far, newest first. -/
structure Pos where
  pre : Str
  post : Str
  caps : List (ℕ × Str)

namespace Pos

/-- The text between a position and a later one. -/
def upto (s t : Pos) : Str := s.post.take (s.post.length - t.post.length)

def advance (s : Pos) (w : Str) : Pos := ⟨w.reverse ++ s.pre, s.post.drop w.length, s.caps⟩

def atEdge (word : Cp → Bool) (s : Pos) : Bool :=
  (s.pre.head?.elim false word) != (s.post.head?.elim false word)

end Pos

/-- Repetition, one iteration at a time. An iteration that consumes nothing is not
repeated, and `n` bounds the iterations by the code points left. -/
def iter (f : Pos → List Pos) (greedy : Bool) : ℕ → Pos → List Pos
  | 0, s => [s]
  | n + 1, s =>
    let more := ((f s).filter fun t => decide (t.post.length < s.post.length)).flatMap
      (iter f greedy n)
    if greedy then more ++ [s] else s :: more

def run : Re → Pos → List Pos
  | .empty, s => [s]
  | .set p, s =>
    match s.post with
    | c :: rest => if p c then [⟨c :: s.pre, rest, s.caps⟩] else []
    | [] => []
  | .seq a b, s => (run a s).flatMap (run b)
  | .alt a b, s => run a s ++ run b s
  | .star g a, s => iter (run a) g s.post.length s
  | .group n a, s => (run a s).map fun t => { t with caps := (n, s.upto t) :: t.caps }
  | .same n, s =>
    match s.caps.lookup n with
    | some w => if w.isPrefixOf s.post then [s.advance w] else []
    | none => []
  | .lineStart, s => if s.pre.head?.elim true (· == cp '\n') then [s] else []
  | .edge word, s => if s.atEdge word then [s] else []
  | .notAfter p, s => if s.pre.head?.elim false p then [] else [s]

/-! ### Derived forms -/

namespace Re

def lit (c : Cp) : Re := .set (· == c)

/-- A literal word. -/
def word : Str → Re
  | [] => .empty
  | c :: s => .seq (lit c) (word s)

def opt (a : Re) : Re := .alt a .empty

def times (a : Re) : ℕ → Re
  | 0 => .empty
  | n + 1 => .seq a (times a n)

/-- `a{0,n}`. -/
def upTo (a : Re) : ℕ → Re
  | 0 => .empty
  | n + 1 => opt (.seq a (upTo a n))

/-- `a{lo,hi}`. -/
def between (a : Re) (lo hi : ℕ) : Re := .seq (times a lo) (upTo a (hi - lo))

/-- `a{lo,}`. -/
def atLeast (a : Re) (lo : ℕ) : Re := .seq (times a lo) (.star true a)

def seqs : List Re → Re
  | [] => .empty
  | [a] => a
  | a :: as => .seq a (seqs as)

def alts : List Re → Re
  | [] => .set fun _ => false
  | [a] => a
  | a :: as => .alt a (alts as)

end Re

/-! ### Scanning -/

structure Match where
  text : Str
  groups : List (ℕ × Str)

def Match.group (m : Match) (n : ℕ) : Str := (m.groups.lookup n).getD []

/-- What a scan finds at one place: a code point outside every match, or a match. -/
inductive Seg
  | skip (c : Cp)
  | hit (m : Match)

namespace Seg

def text : Seg → Str
  | skip c => [c]
  | hit m => m.text

def hit? : Seg → Option Match
  | skip _ => none
  | hit m => some m

end Seg

/-- The match the engine reports at this place, if it consumes something. No pattern
of the source matches the empty text. -/
def matchAt (re : Re) (pre post : Str) : Option Pos :=
  ((run re ⟨pre, post, []⟩).head?).filter fun t => decide (t.post.length < post.length)

/-- Leftmost matches that do not overlap, left to right, with the text between them. -/
def scanFuel (re : Re) : ℕ → Str → Str → List Seg
  | 0, _, _ => []
  | _ + 1, _, [] => []
  | n + 1, pre, c :: post =>
    match matchAt re pre (c :: post) with
    | some t =>
      .hit ⟨(⟨pre, c :: post, []⟩ : Pos).upto t, t.caps⟩ :: scanFuel re n t.pre t.post
    | none => .skip c :: scanFuel re n (c :: pre) post

def scanFrom (re : Re) (pre post : Str) : List Seg := scanFuel re post.length pre post

def scan (re : Re) (s : Str) : List Seg := scanFrom re [] s

/-- `re.finditer`. -/
def finditer (re : Re) (s : Str) : List Match := (scan re s).filterMap Seg.hit?

/-- `re.sub` with a function. -/
def sub (re : Re) (f : Match → Str) (s : Str) : Str :=
  (scan re s).flatMap fun
    | .skip c => [c]
    | .hit m => f m

/-- `re.search(…) is not None`. -/
def found (re : Re) (s : Str) : Bool := !(finditer re s).isEmpty

/-! ### What a match consumes -/

/-- A position further on in the same subject. -/
def Pos.Reaches (s t : Pos) : Prop := ∃ w, s.post = w ++ t.post ∧ t.pre = w.reverse ++ s.pre

theorem Pos.Reaches.refl (s : Pos) : s.Reaches s := ⟨[], by simp, by simp⟩

theorem Pos.Reaches.trans {s t u : Pos} (h : s.Reaches t) (h' : t.Reaches u) : s.Reaches u := by
  obtain ⟨w, hw, hp⟩ := h
  obtain ⟨w', hw', hp'⟩ := h'
  exact ⟨w ++ w', by rw [hw, hw', List.append_assoc], by rw [hp', hp]; simp⟩

theorem iter_reaches {f : Pos → List Pos} (hf : ∀ s, ∀ t ∈ f s, s.Reaches t) (g : Bool) (n : ℕ)
    (s : Pos) : ∀ t ∈ iter f g n s, s.Reaches t := by
  induction n generalizing s with
  | zero => simp [iter, Pos.Reaches.refl]
  | succ n ih =>
    intro t ht
    have hcases : t = s ∨ ∃ u ∈ f s, t ∈ iter f g n u := by
      cases g <;> simp [iter] at ht <;> grind
    rcases hcases with rfl | ⟨u, hu, htu⟩
    · exact .refl t
    · exact (hf s u hu).trans (ih u t htu)

/-- A match consumes a stretch of the subject and nothing else. -/
theorem run_reaches (re : Re) (s : Pos) : ∀ t ∈ run re s, s.Reaches t := by
  induction re generalizing s with
  | empty => simp [run, Pos.Reaches.refl]
  | set p =>
    intro t ht
    obtain ⟨pre, post, caps⟩ := s
    cases post with
    | nil => simp [run] at ht
    | cons c rest =>
      simp only [run] at ht
      split_ifs at ht with hp
      · rw [List.mem_singleton] at ht
        subst ht
        exact ⟨[c], rfl, rfl⟩
      · simp at ht
  | seq a b iha ihb =>
    intro t ht
    obtain ⟨u, hu, htu⟩ := List.mem_flatMap.mp ht
    exact (iha s u hu).trans (ihb u t htu)
  | alt a b iha ihb =>
    intro t ht
    rcases List.mem_append.mp ht with h | h
    · exact iha s t h
    · exact ihb s t h
  | star g a ih => exact iter_reaches (fun s => ih s) g _ s
  | group n a ih =>
    intro t ht
    obtain ⟨u, hu, rfl⟩ := List.mem_map.mp ht
    exact ih s u hu
  | same n =>
    intro t ht
    simp only [run] at ht
    split at ht
    · split_ifs at ht with hpre
      · rw [List.mem_singleton] at ht
        subst ht
        obtain ⟨rest, hrest⟩ := List.isPrefixOf_iff_prefix.mp hpre
        exact ⟨_, by simp [Pos.advance, ← hrest], rfl⟩
      · simp at ht
    · simp at ht
  | lineStart | edge | notAfter =>
    intro t ht
    simp only [run] at ht
    split_ifs at ht <;> simp_all [Pos.Reaches.refl]

theorem Pos.Reaches.post_eq {s t : Pos} (h : s.Reaches t) : s.upto t ++ t.post = s.post := by
  obtain ⟨w, hw, -⟩ := h
  simp [Pos.upto, hw]

theorem Pos.upto_advance {s : Pos} {w : Str} (h : w <+: s.post) : s.upto (s.advance w) = w := by
  obtain ⟨rest, hrest⟩ := h
  simp [Pos.upto, Pos.advance, ← hrest]

theorem matchAt_some {re : Re} {pre post : Str} {t : Pos} (h : matchAt re pre post = some t) :
    (run re ⟨pre, post, []⟩).head? = some t ∧ t.post.length < post.length ∧
      (⟨pre, post, []⟩ : Pos).Reaches t := by
  simp only [matchAt, Option.filter_eq_some_iff, decide_eq_true_eq] at h
  exact ⟨h.1, h.2, run_reaches re _ t (List.mem_of_mem_head? h.1)⟩

/-! ### Scanning step by step -/

theorem scanFuel_eq (re : Re) (n : ℕ) (pre post : Str) (h : post.length ≤ n) :
    scanFuel re n pre post = scanFrom re pre post := by
  induction n using Nat.strong_induction_on generalizing pre post with
  | _ n ih =>
    cases n with
    | zero =>
      have : post = [] := List.length_eq_zero_iff.mp (by omega)
      subst this
      rfl
    | succ n =>
      cases post with
      | nil => rfl
      | cons c post =>
        simp only [List.length_cons] at h
        simp only [scanFrom, List.length_cons, scanFuel]
        cases hm : matchAt re pre (c :: post) with
        | none => rw [ih n (by omega) _ _ (by omega)]; rfl
        | some t =>
          have ht := (matchAt_some hm).2.1
          simp only [List.length_cons] at ht
          simp only
          rw [ih n (by omega) _ _ (by omega)]
          by_cases hn : post.length = n
          · subst hn
            rw [ih post.length (by omega) _ _ (by omega)]
          · rw [ih post.length (by omega) _ _ (by omega)]

@[simp] theorem scanFrom_nil (re : Re) (pre : Str) : scanFrom re pre [] = [] := rfl

theorem scanFrom_hit {re : Re} {pre post : Str} {t : Pos} (h : matchAt re pre post = some t) :
    scanFrom re pre post =
      .hit ⟨(⟨pre, post, []⟩ : Pos).upto t, t.caps⟩ :: scanFrom re t.pre t.post := by
  have ht := (matchAt_some h).2.1
  cases post with
  | nil => simp at ht
  | cons c post =>
    simp only [List.length_cons] at ht
    rw [scanFrom, List.length_cons, scanFuel, h]
    simp only
    rw [scanFuel_eq re post.length _ _ (by omega)]

theorem scanFrom_skip {re : Re} {pre post : Str} {c : Cp}
    (h : matchAt re pre (c :: post) = none) :
    scanFrom re pre (c :: post) = .skip c :: scanFrom re (c :: pre) post := by
  rw [scanFrom, List.length_cons, scanFuel, h]
  rfl

/-- A scan splits the subject and loses nothing. -/
theorem scanFrom_text (re : Re) (pre post : Str) :
    (scanFrom re pre post).flatMap Seg.text = post := by
  induction hn : post.length using Nat.strong_induction_on generalizing pre post with
  | _ n ih =>
    subst hn
    cases hm : matchAt re pre post with
    | some t =>
      have ht := matchAt_some hm
      rw [scanFrom_hit hm, List.flatMap_cons, ih _ ht.2.1 _ _ rfl]
      exact ht.2.2.post_eq
    | none =>
      cases post with
      | nil => rfl
      | cons c post =>
        rw [scanFrom_skip hm, List.flatMap_cons, ih post.length (by simp) _ _ rfl]
        rfl

theorem scan_text (re : Re) (s : Str) : (scan re s).flatMap Seg.text = s :=
  scanFrom_text re [] s

/-! ### Patterns that do not look back -/

/-- Where a match ended and what it captured; the text before it is then determined. -/
def outcome (t : Pos) : Str × List (ℕ × Str) := (t.post, t.caps)

/-- The pattern finds at every place what `read` reads off the text from there on. -/
def ReadBy (re : Re) (read : Str → Option (Str × List (ℕ × Str))) : Prop :=
  ∀ pre post, (matchAt re pre post).map outcome = read post

theorem ReadBy.of_run {re : Re} {read : Str → Option (Str × List (ℕ × Str))}
    (hrun : ∀ pre post, ((run re ⟨pre, post, []⟩).head?).map outcome = read post)
    (hlen : ∀ s r, read s = some r → r.1.length < s.length) : ReadBy re read := by
  intro pre post
  rw [← hrun pre post, matchAt]
  cases hhead : (run re ⟨pre, post, []⟩).head? with
  | none => rfl
  | some t =>
    have hread := hrun pre post
    rw [hhead] at hread
    have hlt : t.post.length < post.length := hlen post _ hread.symm
    rw [Option.filter_some, if_pos (by simpa using hlt)]

namespace ReadBy
variable {re : Re} {read : Str → Option (Str × List (ℕ × Str))} (h : ReadBy re read)
include h

theorem length {s : Str} {r : Str × List (ℕ × Str)} (hr : read s = some r) :
    r.1.length < s.length := by
  obtain ⟨t, ht, rfl⟩ := Option.map_eq_some_iff.mp ((h [] s).trans hr)
  exact (matchAt_some ht).2.1

theorem scanFrom_hit (pre : Str) {s : Str} {r : Str × List (ℕ × Str)} (hr : read s = some r) :
    ∃ pre', scanFrom re pre s =
      .hit ⟨s.take (s.length - r.1.length), r.2⟩ :: scanFrom re pre' r.1 := by
  obtain ⟨t, ht, rfl⟩ := Option.map_eq_some_iff.mp ((h pre s).trans hr)
  exact ⟨t.pre, Regex.scanFrom_hit ht⟩

theorem scanFrom_skip (pre : Str) {c : Cp} {s : Str} (hr : read (c :: s) = none) :
    scanFrom re pre (c :: s) = .skip c :: scanFrom re (c :: pre) s := by
  have hm := (h pre (c :: s)).trans hr
  rw [Option.map_eq_none_iff] at hm
  exact Regex.scanFrom_skip hm

/-- What stands before a text does not matter to its scan. -/
theorem scanFrom_pre (pre s : Str) : scanFrom re pre s = scan re s := by
  unfold scan
  induction hn : s.length using Nat.strong_induction_on generalizing pre s with
  | _ n ih =>
    subst hn
    have hany (pre₁ pre₂ t : Str) (ht : t.length < s.length) :
        scanFrom re pre₁ t = scanFrom re pre₂ t := by
      rw [ih _ ht pre₁ t rfl, ih _ ht pre₂ t rfl]
    cases hr : read s with
    | some r =>
      obtain ⟨pre₁, h₁⟩ := h.scanFrom_hit pre hr
      obtain ⟨pre₂, h₂⟩ := h.scanFrom_hit [] hr
      rw [h₁, h₂, hany pre₁ pre₂ _ (h.length hr)]
    | none =>
      cases s with
      | nil => rfl
      | cons c s =>
        rw [h.scanFrom_skip pre hr, h.scanFrom_skip [] hr, hany (c :: pre) [c] s (by simp)]

theorem scan_hit {s : Str} {r : Str × List (ℕ × Str)} (hr : read s = some r) :
    scan re s = .hit ⟨s.take (s.length - r.1.length), r.2⟩ :: scan re r.1 := by
  obtain ⟨pre', hs⟩ := h.scanFrom_hit [] hr
  rw [scan, hs, h.scanFrom_pre]

theorem scan_skip {c : Cp} {s : Str} (hr : read (c :: s) = none) :
    scan re (c :: s) = .skip c :: scan re s := by
  rw [scan, h.scanFrom_skip [] hr, h.scanFrom_pre]

theorem sub_hit (f : Match → Str) {s : Str} {r : Str × List (ℕ × Str)} (hr : read s = some r) :
    sub re f s = f ⟨s.take (s.length - r.1.length), r.2⟩ ++ sub re f r.1 := by
  rw [sub, h.scan_hit hr, List.flatMap_cons]
  rfl

theorem sub_skip (f : Match → Str) {c : Cp} {s : Str} (hr : read (c :: s) = none) :
    sub re f (c :: s) = c :: sub re f s := by
  rw [sub, h.scan_skip hr, List.flatMap_cons]
  rfl

end ReadBy

/-! ### Classes that cannot be given back -/

theorem run_word (w : Str) (s : Pos) :
    run (.word w) s = if w.isPrefixOf s.post then [s.advance w] else [] := by
  induction w generalizing s with
  | nil => simp [Re.word, run, Pos.advance]
  | cons c w ih =>
    obtain ⟨pre, post, caps⟩ := s
    cases post with
    | nil => simp [Re.word, Re.lit, run]
    | cons d post =>
      by_cases hd : d = c
      · subst hd
        by_cases hw : w.isPrefixOf post = true
        · simp [Re.word, Re.lit, run, ih, hw, Pos.advance]
        · simp [Re.word, Re.lit, run, ih, hw]
      · simp [Re.word, Re.lit, run, hd, Ne.symm hd]

section
variable {β : Type*} {p : Cp → Bool} {k : Pos → List β}

/-- A greedy class before something that cannot begin with one of the class: it takes
the whole stretch. -/
theorem flatMap_star_greedy (hk : ∀ pre c rest caps, p c = true → k ⟨pre, c :: rest, caps⟩ = [])
    (s : Pos) :
    (run (.star true (.set p)) s).flatMap k = k (s.advance (s.post.takeWhile p)) := by
  obtain ⟨pre, post, caps⟩ := s
  simp only [run]
  induction post generalizing pre with
  | nil => simp [iter, Pos.advance]
  | cons c rest ih =>
    by_cases hc : p c = true
    · have hmore := ih (c :: pre)
      simp only [List.length_cons, iter, hc, if_true, List.filter_cons, List.filter_nil,
        Nat.lt_succ_self, decide_true, List.flatMap_cons, List.flatMap_nil, List.append_nil,
        List.flatMap_append, hk pre c rest caps hc, List.takeWhile_cons_of_pos hc]
      rw [hmore]
      simp [Pos.advance]
    · simp [iter, hc, Pos.advance]

/-- A greedy class first takes the whole stretch. -/
theorem head?_star_greedy (s : Pos) :
    (run (.star true (.set p)) s).head? = some (s.advance (s.post.takeWhile p)) := by
  obtain ⟨pre, post, caps⟩ := s
  simp only [run]
  induction post generalizing pre with
  | nil => simp [iter, Pos.advance]
  | cons c rest ih =>
    by_cases hc : p c = true
    · have hmore := ih (c :: pre)
      simp only [List.length_cons, iter, hc, if_true, List.filter_cons, List.filter_nil,
        Nat.lt_succ_self, decide_true, List.flatMap_cons, List.flatMap_nil, List.append_nil,
        List.head?_append, hmore, List.takeWhile_cons_of_pos hc]
      simp [Pos.advance]
    · simp [iter, hc, Pos.advance]

/-- A lazy class takes one more code point only when nothing follows with fewer. -/
theorem head?_star_lazy (pre post : Str) (caps : List (ℕ × Str)) :
    ((run (.star false (.set p)) ⟨pre, post, caps⟩).flatMap k).head? =
      (k ⟨pre, post, caps⟩).head?.or
        (match post with
        | c :: rest =>
          if p c then ((run (.star false (.set p)) ⟨c :: pre, rest, caps⟩).flatMap k).head?
          else none
        | [] => none) := by
  simp only [run]
  cases post with
  | nil => simp [iter]
  | cons c rest =>
    by_cases hc : p c = true
    · simp [iter, hc, List.head?_append]
    · simp [iter, hc]

end

end AskFable.Regex

import AskFable.Guard.Fold

/-!
# What the allowlist relaxes

A benign phrase is replaced by a space before the offense pattern runs. An offense term that no
phrase touches is still found. A new phrase, though, can take the place of another, and its space
can stand between the words of a term or at its edge, so it can also expose one.
-/
namespace AskFable.Guard
open AskFable.Text AskFable.Python AskFable.Regex

variable (u : Unicode)

/-- The allow pattern with the operator's phrases. -/
def allowBody (allow : List Str) : Re :=
  joined u ((ALLOW_TERMS ++ allow).insertionSort fun a b => b.length ≤ a.length)

/-- The pieces a text is cut into at the benign phrases. -/
def allowPieces (allow : List Str) (text : Str) : List Piece :=
  pieces (bounded u (allowBody u allow)) text

/-- What pieces leave of a text. -/
def left (ps : List Piece) : Str := ps.map scrubbedChar

/-- The offense pattern matches what some pieces leave. -/
def Stands (offense : Re) (ps : List Piece) : Prop :=
  ∃ a mid b, ps = a ++ mid ++ b ∧ Occurs u offense (left a) (left mid) (left b)

/-- The offense pattern matches what some of the new pieces leave, and the old pieces do not have
these with the same neighbours. -/
def Exposed (offense : Re) (old new : List Piece) : Prop :=
  ∃ a mid b, new = a ++ mid ++ b ∧ Occurs u offense (left a) (left mid) (left b) ∧
    ¬∃ a' b', old = a' ++ mid ++ b' ∧ a'.getLast? = a.getLast? ∧ b'.head? = b.head?

/-- An offense term stands in a text where no benign phrase matches. -/
def Uncovered (deny allow : List Str) (text : Str) : Prop :=
  ∃ before w after, text = before ++ w ++ after ∧ Occurs u (pattern u deny) before w after ∧
    ∀ phrase ∈ ALLOW_TERMS ++ allow, ∀ b x a, text = b ++ x ++ a →
      Occurs u (inflectable u phrase) b x a →
        b.length + x.length ≤ before.length ∨ before.length + w.length ≤ b.length

variable {u}

theorem scrub_allowPattern (allow : List Str) (text : Str) :
    scrub u (allowPattern u allow) text = left (allowPieces u allow text) := by
  have hne : ¬ALLOW_TERMS ++ allow = [] := by simp [ALLOW_TERMS]
  simp only [allowPattern, if_neg hne]
  rfl

theorem check_fst {deny allow : List Str} {prompt : Str} :
    (checkDenylist u deny allow prompt).1 = false ↔
      strip prompt ≠ [] ∧
        search u (pattern u deny) (left (allowPieces u allow (fold u prompt))) = true := by
  rw [checkDenylist, checkWith, scrub_allowPattern]
  by_cases hblank : strip prompt = []
  · simp [hblank]
  · by_cases hfound :
      search u (pattern u deny) (left (allowPieces u allow (fold u prompt))) = true
    · simp [hblank, hfound]
    · simp [hblank, hfound]

/-- What the pieces leave is searched piece by piece. -/
theorem search_left {body : Re} (h : body.plain = true) {ps : List Piece} :
    search u body (left ps) = true ↔ Stands u body ps := by
  rw [search_iff h]
  constructor
  · rintro ⟨before, w, after, htext, hoccurs⟩
    obtain ⟨ab, b, rfl, hab, rfl⟩ := List.map_eq_append_iff.mp htext
    obtain ⟨a, mid, rfl, rfl, rfl⟩ := List.map_eq_append_iff.mp hab
    exact ⟨a, mid, b, rfl, hoccurs⟩
  · rintro ⟨a, mid, b, rfl, hoccurs⟩
    exact ⟨left a, left mid, left b, by simp [left], hoccurs⟩

/-! ### One phrase more -/

/-- What the old pieces have too, with the same neighbours, stands there too. -/
theorem stands_or_exposed {offense : Re} {old new : List Piece} (h : Stands u offense new) :
    Stands u offense old ∨ Exposed u offense old new := by
  obtain ⟨a, mid, b, hnew, hoccurs⟩ := h
  by_cases hold : ∃ a' b', old = a' ++ mid ++ b' ∧ a'.getLast? = a.getLast? ∧ b'.head? = b.head?
  · obtain ⟨a', b', hold, hlast, hhead⟩ := hold
    refine .inl ⟨a', mid, b', hold, hoccurs.accepts, ?_, ?_⟩
    · have hfront := hoccurs.front
      rwa [left, List.getLast?_map, ← hlast, ← List.getLast?_map] at hfront
    · have hback := hoccurs.back
      rwa [left, List.head?_map, ← hhead, ← List.head?_map] at hback
  · exact .inr ⟨a, mid, b, hnew, hoccurs, hold⟩

theorem Exposed.stands {offense : Re} {old new : List Piece} (h : Exposed u offense old new) :
    Stands u offense new := by
  obtain ⟨a, mid, b, hnew, hoccurs, -⟩ := h
  exact ⟨a, mid, b, hnew, hoccurs⟩

/-! ### Terms no phrase touches -/

theorem space_not_word : isWord u (cp ' ') = false := by
  have hspace : u.caseless (cp ' ') = cp ' ' := u.caseless_ascii (cp ' ') (by decide)
  rw [isWord, hspace]
  decide

/-- What is cut is a match of a phrase. -/
theorem exists_phrase {allow : List Str} {text : Str} {i : ℕ} {x : Str}
    (h : .cut i x ∈ allowPieces u allow text) :
    ∃ phrase ∈ ALLOW_TERMS ++ allow, ∃ b a, text = b ++ x ++ a ∧ b.length = i ∧
      Occurs u (inflectable u phrase) b x a := by
  obtain ⟨b, a, htext, hi, t, ht, hpost⟩ := matchedAt_of_cut bounded_reaches h
  obtain ⟨w, after, hsplit, rfl, hoccurs⟩ := (mem_bounded (plain_joined _)).mp ht
  dsimp only at hpost
  subst hpost
  obtain rfl := List.append_cancel_right hsplit
  obtain ⟨r, hr, haccepts⟩ := accepts_alts.mp hoccurs.accepts
  obtain ⟨phrase, hphrase, rfl⟩ := List.mem_map.mp hr
  exact ⟨phrase, (List.mem_insertionSort _).mp hphrase, b, after, by simpa using htext, hi, haccepts,
    hoccurs.front, hoccurs.back⟩

/-- Before a place stands what the pieces before it leave there: the same character or a space. -/
theorem front_left {a : List Piece}
    (h : (a.flatMap Piece.text).getLast?.elim false (isWord u) = false) :
    (left a).getLast?.elim false (isWord u) = false := by
  rcases List.eq_nil_or_concat a with rfl | ⟨a, piece, rfl⟩
  · rfl
  rw [List.concat_eq_append] at h ⊢
  cases piece with
  | kept i c => simpa [left, Piece.text, scrubbedChar] using h
  | cut i x => simpa [left, scrubbedChar] using space_not_word

theorem back_left {b : List Piece}
    (h : (b.flatMap Piece.text).head?.elim false (isWord u) = false) :
    (left b).head?.elim false (isWord u) = false := by
  cases b with
  | nil => rfl
  | cons piece b =>
    cases piece with
    | kept i c => simpa [left, Piece.text, scrubbedChar] using h
    | cut i x => simpa [left, scrubbedChar] using space_not_word

theorem left_kept {mid : List Piece} {w : Str}
    (h : List.Forall₂ (fun piece c => ∃ i, piece = Piece.kept i c) mid w) : left mid = w := by
  induction h with
  | nil => rfl
  | cons hpiece _ ih =>
    obtain ⟨i, rfl⟩ := hpiece
    rw [left, List.map_cons, ← left, ih]
    rfl

/-- A term that no phrase touches stands in what the phrases leave. -/
theorem Uncovered.stands {deny allow : List Str} {text : Str} (h : Uncovered u deny allow text) :
    Stands u (pattern u deny) (allowPieces u allow text) := by
  obtain ⟨before, w, after, rfl, hoccurs, happart⟩ := h
  have hcut : ∀ i x, Piece.cut i x ∈ allowPieces u allow (before ++ w ++ after) →
      i + x.length ≤ before.length ∨ before.length + w.length ≤ i := by
    intro i x hx
    obtain ⟨phrase, hphrase, b, a, htext, rfl, hmatch⟩ := exists_phrase hx
    exact happart phrase hphrase b x a htext hmatch
  have htiled : Tiled 0 (allowPieces u allow (before ++ w ++ after)) :=
    tiled_piecesFrom bounded_reaches [] _
  have htext : (allowPieces u allow (before ++ w ++ after)).flatMap Piece.text =
      before ++ (w ++ after) := by
    rw [← List.append_assoc]
    exact piecesFrom_text bounded_reaches [] _
  generalize allowPieces u allow (before ++ w ++ after) = ps at hcut htiled htext
  obtain ⟨a, rest, rfl, ha, hrest, htiled, hhead⟩ := exists_divide htiled htext fun i x hx => by
    have hx := hcut i x hx
    omega
  obtain ⟨mid, b, rfl, hb, hmid⟩ := exists_kept htiled hrest
    (fun i x hx => by
      have hx := hcut i x (List.mem_append_right a hx)
      omega) fun _ => hhead
  refine ⟨a, mid, b, by simp, ?_, front_left (ha ▸ hoccurs.front), back_left (hb ▸ hoccurs.back)⟩
  rw [left_kept hmid]
  exact hoccurs.accepts

/-- A new phrase never makes a prompt rejected, and a term that no phrase touches is always
rejected, unless the phrase exposes a term where none stood or a prompt let pass as blank has
one. -/
theorem allowlist_relaxes_iff (deny xs ys : List Str) (phrase prompt : Str) :
    ((checkDenylist u deny (xs ++ ys) prompt).1 = true →
          (checkDenylist u deny (xs ++ phrase :: ys) prompt).1 = true) ∧
        (Uncovered u deny (xs ++ ys) (fold u prompt) →
          (checkDenylist u deny (xs ++ ys) prompt).1 = false) ↔
      (strip prompt = [] ∨
          ¬Exposed u (pattern u deny) (allowPieces u (xs ++ ys) (fold u prompt))
            (allowPieces u (xs ++ phrase :: ys) (fold u prompt)) ∨
          Stands u (pattern u deny) (allowPieces u (xs ++ ys) (fold u prompt))) ∧
        (strip prompt ≠ [] ∨ ¬Uncovered u deny (xs ++ ys) (fold u prompt)) := by
  have hfst (allow : List Str) : (checkDenylist u deny allow prompt).1 = false ↔
      strip prompt ≠ [] ∧ Stands u (pattern u deny) (allowPieces u allow (fold u prompt)) := by
    rw [check_fst, search_left (plain_pattern deny)]
  refine and_congr ?_ ?_
  · rw [← not_imp_not, Bool.not_eq_true, Bool.not_eq_true, hfst, hfst]
    constructor
    · intro h
      by_cases hblank : strip prompt = []
      · exact .inl hblank
      by_cases hexposed : Exposed u (pattern u deny) (allowPieces u (xs ++ ys) (fold u prompt))
          (allowPieces u (xs ++ phrase :: ys) (fold u prompt))
      · exact .inr (.inr (h ⟨hblank, hexposed.stands⟩).2)
      · exact .inr (.inl hexposed)
    · rintro (hblank | hexposed | hstands) ⟨hne, hnew⟩
      · exact absurd hblank hne
      · exact ⟨hne, (stands_or_exposed hnew).resolve_right hexposed⟩
      · exact ⟨hne, hstands⟩
  · rw [hfst]
    constructor
    · intro h
      by_cases hblank : strip prompt = []
      · exact .inr fun huncovered => (h huncovered).1 hblank
      · exact .inl hblank
    · rintro (hne | hnone) huncovered
      · exact ⟨hne, huncovered.stands⟩
      · exact absurd huncovered hnone

/-- A new phrase takes the place of a longer one that overlaps it, and exposes its end. -/
theorem phrase_exposes :
    (checkDenylist accents [] [] (txt "api request payload")).1 = true ∧
      (checkDenylist accents [] [txt "api request"] (txt "api request payload")).1 = false := by
  decide +kernel

end AskFable.Guard

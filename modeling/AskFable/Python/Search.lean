import AskFable.Python.Regex

/-!
# Searching for matches that may be empty

`search` and `sub` of Python's `re`, for a pattern given by its matches at a place in the order
the engine tries them. `sub` replaces an empty match too, and then looks for a match that goes on
from there.
-/
namespace AskFable.Regex
open AskFable.Text

/-- `re.search(…) is not None`, from a place on. -/
def foundFrom (m : Pos → List Pos) (pre : Str) : Str → Bool
  | [] => !(m ⟨pre, [], []⟩).isEmpty
  | c :: post => !(m ⟨pre, c :: post, []⟩).isEmpty || foundFrom m (c :: pre) post

/-- A piece of a text, with the place it begins at: a character outside every match, or a match. -/
inductive Piece
  | kept (start : ℕ) (c : Cp)
  | cut (start : ℕ) (w : Str)
  deriving DecidableEq

/-- The text of a piece. -/
def Piece.text : Piece → Str
  | kept _ c => [c]
  | cut _ w => w

/-- The empty match at a place, if it is the first that is tried. -/
def blankAt (m : Pos → List Pos) (pre post : Str) : List Piece :=
  if (m ⟨pre, post, []⟩).head?.any fun t => t.post.length == post.length then [.cut pre.length []]
  else []

/-- The first match at a place that goes on from it. -/
def nextAt (m : Pos → List Pos) (pre post : Str) : Option Pos :=
  (m ⟨pre, post, []⟩).find? fun t => decide (t.post.length < post.length)

/-- The pieces `re.sub` goes through, from a place on. -/
def piecesFrom (m : Pos → List Pos) (pre post : Str) : List Piece :=
  blankAt m pre post ++
    match _hnext : nextAt m pre post with
    | some t => .cut pre.length ((⟨pre, post, []⟩ : Pos).upto t) :: piecesFrom m t.pre t.post
    | none =>
      match post with
      | [] => []
      | c :: rest => .kept pre.length c :: piecesFrom m (c :: pre) rest
termination_by post.length
decreasing_by
  · simpa using List.find?_some _hnext
  · simp

/-- The pieces of a whole text. -/
def pieces (m : Pos → List Pos) (s : Str) : List Piece := piecesFrom m [] s

/-! ### Piece by piece -/

variable {m : Pos → List Pos} {pre post : Str}

theorem piecesFrom_cut {t : Pos} (h : nextAt m pre post = some t) :
    piecesFrom m pre post = blankAt m pre post ++
      .cut pre.length ((⟨pre, post, []⟩ : Pos).upto t) :: piecesFrom m t.pre t.post := by
  rw [piecesFrom]
  split
  · rename_i t' h'
    rw [Option.some.inj (h'.symm.trans h)]
  · rename_i h'
    cases h'.symm.trans h

theorem piecesFrom_kept {c : Cp} (h : nextAt m pre (c :: post) = none) :
    piecesFrom m pre (c :: post) =
      blankAt m pre (c :: post) ++ .kept pre.length c :: piecesFrom m (c :: pre) post := by
  rw [piecesFrom]
  split
  · rename_i t h'
    cases h'.symm.trans h
  · rfl

theorem piecesFrom_nil (m : Pos → List Pos) (pre : Str) : piecesFrom m pre [] = blankAt m pre [] := by
  have hnone : nextAt m pre [] = none := by
    rw [nextAt, List.find?_eq_none]
    simp
  rw [piecesFrom]
  split
  · rename_i t h
    cases h.symm.trans hnone
  · rw [List.append_nil]

theorem nextAt_some {t : Pos} (h : nextAt m pre post = some t) :
    t ∈ m ⟨pre, post, []⟩ ∧ t.post.length < post.length :=
  ⟨List.mem_of_find?_eq_some h, by simpa using List.find?_some h⟩

theorem blankAt_text (m : Pos → List Pos) (pre post : Str) :
    (blankAt m pre post).flatMap Piece.text = [] := by
  unfold blankAt
  split_ifs <;> rfl

/-- The pieces make up the text. -/
theorem piecesFrom_text (hm : ∀ s, ∀ t ∈ m s, s.Reaches t) (pre post : Str) :
    (piecesFrom m pre post).flatMap Piece.text = post := by
  induction hn : post.length using Nat.strongRecOn generalizing pre post with
  | _ n ih =>
    cases hnext : nextAt m pre post with
    | some t =>
      obtain ⟨ht, hlt⟩ := nextAt_some hnext
      rw [piecesFrom_cut hnext, List.flatMap_append, blankAt_text, List.flatMap_cons,
        ih _ (hn ▸ hlt) t.pre t.post rfl]
      exact (hm _ t ht).post_eq
    | none =>
      cases post with
      | nil => rw [piecesFrom_nil, blankAt_text]
      | cons c rest =>
        rw [piecesFrom_kept hnext, List.flatMap_append, blankAt_text, List.flatMap_cons,
          ih rest.length (by rw [← hn]; exact Nat.lt_succ_self _) (c :: pre) rest rfl]
        rfl

/-! ### Where the pieces are -/

def Piece.start : Piece → ℕ
  | kept i _ => i
  | cut i _ => i

/-- Every piece begins where the one before it ends. -/
def Tiled : ℕ → List Piece → Prop
  | _, [] => True
  | n, piece :: ps => piece.start = n ∧ Tiled (n + piece.text.length) ps

theorem Pos.Reaches.length_eq {s t : Pos} (h : s.Reaches t) :
    t.pre.length = s.pre.length + (s.upto t).length := by
  obtain ⟨w, hw, hpre⟩ := h
  have hupto : s.upto t = w := by simp [Pos.upto, hw]
  rw [hupto, hpre, List.length_append, List.length_reverse, Nat.add_comm]

theorem Pos.Reaches.whole {s t : Pos} (h : s.Reaches t) :
    t.pre.reverse ++ t.post = s.pre.reverse ++ s.post := by
  obtain ⟨w, hw, hpre⟩ := h
  simp [hw, hpre]

theorem tiled_blankAt {ps : List Piece} (h : Tiled pre.length ps) :
    Tiled pre.length (blankAt m pre post ++ ps) := by
  unfold blankAt
  split_ifs
  · exact ⟨rfl, h⟩
  · exact h

theorem tiled_piecesFrom (hm : ∀ s, ∀ t ∈ m s, s.Reaches t) (pre post : Str) :
    Tiled pre.length (piecesFrom m pre post) := by
  induction hn : post.length using Nat.strongRecOn generalizing pre post with
  | _ n ih =>
    cases hnext : nextAt m pre post with
    | some t =>
      obtain ⟨ht, hlt⟩ := nextAt_some hnext
      rw [piecesFrom_cut hnext]
      refine tiled_blankAt ⟨rfl, ?_⟩
      rw [Piece.text, ← (hm _ t ht).length_eq]
      exact ih _ (hn ▸ hlt) t.pre t.post rfl
    | none =>
      cases post with
      | nil =>
        rw [piecesFrom_nil, ← List.append_nil (blankAt m pre [])]
        exact tiled_blankAt trivial
      | cons c rest =>
        rw [piecesFrom_kept hnext]
        exact tiled_blankAt ⟨rfl, ih rest.length (by rw [← hn]; exact Nat.lt_succ_self _)
          (c :: pre) rest rfl⟩

/-- A stretch of a text that matches where it stands. -/
def MatchedAt (m : Pos → List Pos) (s : Str) (i : ℕ) (x : Str) : Prop :=
  ∃ b a, s = b ++ x ++ a ∧ b.length = i ∧ ∃ t ∈ m ⟨b.reverse, x ++ a, []⟩, t.post = a

theorem matchedAt_of_mem (hm : ∀ s, ∀ t ∈ m s, s.Reaches t) {t : Pos} (ht : t ∈ m ⟨pre, post, []⟩) :
    MatchedAt m (pre.reverse ++ post) pre.length ((⟨pre, post, []⟩ : Pos).upto t) := by
  have hpost := (hm _ t ht).post_eq
  dsimp only at hpost
  refine ⟨pre.reverse, t.post, ?_, List.length_reverse, t, ?_, rfl⟩
  · rw [List.append_assoc, hpost]
  · rwa [List.reverse_reverse, hpost]

theorem matchedAt_of_blank (hm : ∀ s, ∀ t ∈ m s, s.Reaches t) {i : ℕ} {x : Str}
    (h : .cut i x ∈ blankAt m pre post) : MatchedAt m (pre.reverse ++ post) i x := by
  unfold blankAt at h
  split_ifs at h with hhead
  · obtain ⟨rfl, rfl⟩ := Piece.cut.inj (List.mem_singleton.mp h)
    obtain ⟨t, ht, hlen⟩ := (Option.any_eq_true _ _).mp hhead
    have hupto : (⟨pre, post, []⟩ : Pos).upto t = [] := by
      rw [Pos.upto, beq_iff_eq.mp hlen, Nat.sub_self, List.take_zero]
    have hmatch := matchedAt_of_mem hm (List.mem_of_mem_head? ht)
    rwa [hupto] at hmatch
  · cases h

/-- What is cut is a match where it stands. -/
theorem matchedAt_of_cut (hm : ∀ s, ∀ t ∈ m s, s.Reaches t) {i : ℕ} {x : Str}
    (h : .cut i x ∈ piecesFrom m pre post) : MatchedAt m (pre.reverse ++ post) i x := by
  induction hn : post.length using Nat.strongRecOn generalizing pre post with
  | _ n ih =>
    cases hnext : nextAt m pre post with
    | some t =>
      obtain ⟨ht, hlt⟩ := nextAt_some hnext
      rw [piecesFrom_cut hnext, List.mem_append, List.mem_cons] at h
      rcases h with h | h | h
      · exact matchedAt_of_blank hm h
      · obtain ⟨rfl, rfl⟩ := Piece.cut.inj h
        exact matchedAt_of_mem hm ht
      · have hmatch := ih _ (hn ▸ hlt) h rfl
        rwa [(hm _ t ht).whole] at hmatch
    | none =>
      cases post with
      | nil =>
        rw [piecesFrom_nil] at h
        exact matchedAt_of_blank hm h
      | cons c rest =>
        rw [piecesFrom_kept hnext, List.mem_append, List.mem_cons] at h
        rcases h with h | h | h
        · exact matchedAt_of_blank hm h
        · cases h
        · have hmatch := ih rest.length (by rw [← hn]; exact Nat.lt_succ_self _) h rfl
          simpa using hmatch

/-! ### Stretches that no cut touches -/

/-- A cut between the places `k` and `k'`, or reaching into what is between them. -/
def Clear (k k' : ℕ) (ps : List Piece) : Prop :=
  ∀ i x, Piece.cut i x ∈ ps → i + x.length ≤ k ∨ k' ≤ i

theorem Clear.tail {k k' : ℕ} {piece : Piece} {ps : List Piece} (h : Clear k k' (piece :: ps)) :
    Clear k k' ps := fun i x hx => h i x (List.mem_cons_of_mem piece hx)

/-- A place that no cut reaches over divides the pieces. Empty cuts at the place come before it. -/
theorem exists_divide {n : ℕ} {ps : List Piece} {before rest : Str} (htiled : Tiled n ps)
    (htext : ps.flatMap Piece.text = before ++ rest)
    (hclear : Clear (n + before.length) (n + before.length) ps) :
    ∃ a b, ps = a ++ b ∧ a.flatMap Piece.text = before ∧ b.flatMap Piece.text = rest ∧
      Tiled (n + before.length) b ∧ ∀ piece, b.head? = some piece → piece.text ≠ [] := by
  induction ps generalizing n before with
  | nil =>
    obtain ⟨rfl, rfl⟩ := List.append_eq_nil_iff.mp htext.symm
    exact ⟨[], [], rfl, rfl, rfl, trivial, by simp⟩
  | cons piece ps ih =>
    obtain ⟨rfl, htiled⟩ := htiled
    rw [List.flatMap_cons] at htext
    by_cases hstop : before = [] ∧ piece.text ≠ []
    · obtain ⟨rfl, hne⟩ := hstop
      exact ⟨[], piece :: ps, rfl, rfl, by simpa using htext, ⟨by simp, by simpa using htiled⟩,
        by simpa using hne⟩
    -- the piece ends before the place
    obtain ⟨left, rfl⟩ : ∃ left, before = piece.text ++ left := by
      cases piece with
      | kept i c =>
        cases before with
        | nil => exact absurd ⟨rfl, List.cons_ne_nil c []⟩ hstop
        | cons d before =>
          rw [Piece.text, List.singleton_append, List.cons_append] at htext
          exact ⟨before, by rw [(List.cons.inj htext).1]; rfl⟩
      | cut i x =>
        have hcut := hclear i x List.mem_cons_self
        have hle : x.length ≤ before.length := by
          rw [Piece.start] at hcut
          rcases hcut with hcut | hcut
          · omega
          · have hnil : before = [] := List.length_eq_zero_iff.mp (by omega)
            have hx : x = [] := by
              by_contra hx
              exact hstop ⟨hnil, hx⟩
            simp [hx]
        obtain ⟨left, hleft⟩ := List.prefix_of_prefix_length_le
          (List.prefix_append x _) (htext ▸ List.prefix_append before rest) hle
        exact ⟨left, hleft.symm⟩
    rw [List.append_assoc, List.append_cancel_left_eq] at htext
    have hsum : piece.start + (piece.text ++ left).length =
        piece.start + piece.text.length + left.length := by
      rw [List.length_append, Nat.add_assoc]
    rw [hsum] at hclear ⊢
    obtain ⟨a, b, rfl, ha, hb, htile, hhead⟩ := ih htiled htext hclear.tail
    exact ⟨piece :: a, b, rfl, by rw [List.flatMap_cons, ha], hb, htile, hhead⟩

/-- What no cut touches is kept character for character. -/
theorem exists_kept {n : ℕ} {ps : List Piece} {w rest : Str} (htiled : Tiled n ps)
    (htext : ps.flatMap Piece.text = w ++ rest) (hclear : Clear n (n + w.length) ps)
    (hhead : w ≠ [] → ∀ piece, ps.head? = some piece → piece.text ≠ []) :
    ∃ mid b, ps = mid ++ b ∧ b.flatMap Piece.text = rest ∧
      List.Forall₂ (fun piece c => ∃ i, piece = Piece.kept i c) mid w := by
  induction w generalizing n ps with
  | nil => exact ⟨[], ps, rfl, htext, .nil⟩
  | cons c w ih =>
    cases ps with
    | nil => simp at htext
    | cons piece ps =>
      obtain ⟨rfl, htiled⟩ := htiled
      rw [List.flatMap_cons] at htext
      cases piece with
      | cut i x =>
        have hx : x ≠ [] := hhead (List.cons_ne_nil c w) _ rfl
        have hpos := List.length_pos_iff.mpr hx
        have hcut := hclear i x List.mem_cons_self
        rw [Piece.start, List.length_cons] at hcut
        omega
      | kept i d =>
        rw [Piece.text, List.singleton_append, List.cons_append, List.cons.injEq] at htext
        obtain ⟨rfl, htext⟩ := htext
        have hclear' : Clear (i + 1) (i + 1 + w.length) ps := by
          intro j x hx
          have hcut := hclear j x (List.mem_cons_of_mem _ hx)
          rw [Piece.start, List.length_cons] at hcut
          omega
        have hhead' : w ≠ [] → ∀ piece, ps.head? = some piece → piece.text ≠ [] := by
          intro hw piece hpiece hnil
          obtain ⟨ps, rfl⟩ := List.head?_eq_some_iff.mp hpiece
          cases piece with
          | kept => cases hnil
          | cut j x =>
            have hpos := List.length_pos_iff.mpr hw
            have hcut := hclear j x (List.mem_cons_of_mem _ List.mem_cons_self)
            have hj : j = i + 1 := htiled.1
            rw [Piece.start, List.length_cons] at hcut
            omega
        obtain ⟨mid, b, rfl, hb, hmid⟩ := ih htiled htext hclear' hhead'
        exact ⟨.kept i d :: mid, b, rfl, hb, .cons ⟨i, rfl⟩ hmid⟩

end AskFable.Regex

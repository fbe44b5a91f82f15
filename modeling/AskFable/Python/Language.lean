import AskFable.Python.Search

/-!
# What a pattern accepts

A pattern without groups, references and conditions on its surroundings matches a text or not,
wherever it stands. The engine finds a match there for each beginning of the text ahead that the
pattern accepts.
-/
namespace AskFable.Regex
open AskFable.Text

/-- No groups, no references, nothing about what stands around. -/
def Re.plain : Re → Bool
  | .empty | .set _ => true
  | .seq a b | .alt a b => a.plain && b.plain
  | .star _ a => a.plain
  | .group _ _ | .same _ | .lineStart | .edge _ | .notAfter _ => false

/-- The texts a plain pattern matches. -/
inductive Accepts : Re → Str → Prop
  | empty : Accepts .empty []
  | set {p : Cp → Bool} {c : Cp} : p c = true → Accepts (.set p) [c]
  | seq {a b : Re} {v w : Str} : Accepts a v → Accepts b w → Accepts (.seq a b) (v ++ w)
  | left {a b : Re} {w : Str} : Accepts a w → Accepts (.alt a b) w
  | right {a b : Re} {w : Str} : Accepts b w → Accepts (.alt a b) w
  | done {g : Bool} {a : Re} : Accepts (.star g a) []
  | more {g : Bool} {a : Re} {v w : Str} :
    v ≠ [] → Accepts a v → Accepts (.star g a) w → Accepts (.star g a) (v ++ w)

theorem accepts_empty {w : Str} : Accepts .empty w ↔ w = [] := by
  constructor
  · intro h
    cases h
    rfl
  · rintro rfl
    exact .empty

theorem accepts_set {p : Cp → Bool} {w : Str} :
    Accepts (.set p) w ↔ ∃ c, p c = true ∧ w = [c] := by
  constructor
  · intro h
    cases h with
    | set hc => exact ⟨_, hc, rfl⟩
  · rintro ⟨c, hc, rfl⟩
    exact .set hc

theorem accepts_seq {a b : Re} {w : Str} :
    Accepts (.seq a b) w ↔ ∃ v x, Accepts a v ∧ Accepts b x ∧ w = v ++ x := by
  constructor
  · intro h
    cases h with
    | seq hv hx => exact ⟨_, _, hv, hx, rfl⟩
  · rintro ⟨v, x, hv, hx, rfl⟩
    exact .seq hv hx

theorem accepts_alt {a b : Re} {w : Str} :
    Accepts (.alt a b) w ↔ Accepts a w ∨ Accepts b w := by
  constructor
  · intro h
    cases h with
    | left hw => exact .inl hw
    | right hw => exact .inr hw
  · rintro (hw | hw)
    · exact .left hw
    · exact .right hw

/-! ### Positions -/

theorem Pos.advance_nil (s : Pos) : s.advance [] = s := rfl

theorem Pos.advance_append (s : Pos) (v w : Str) :
    (s.advance v).advance w = s.advance (v ++ w) := by
  simp [Pos.advance]

theorem Pos.append_prefix {s : Pos} {v w : Str} :
    v ++ w <+: s.post ↔ v <+: s.post ∧ w <+: (s.advance v).post := by
  constructor
  · rintro ⟨r, hr⟩
    refine ⟨⟨w ++ r, by rw [← hr, List.append_assoc]⟩, r, ?_⟩
    rw [Pos.advance, ← hr, List.append_assoc, List.drop_left]
  · rintro ⟨⟨r, hr⟩, r', hr'⟩
    refine ⟨r', ?_⟩
    rw [Pos.advance, ← hr, List.drop_left] at hr'
    rw [List.append_assoc, hr', hr]

/-- The engine goes on by the texts that a language has. -/
def Follows (f : Pos → List Pos) (accepts : Str → Prop) : Prop :=
  ∀ s t, t ∈ f s ↔ ∃ w, accepts w ∧ w <+: s.post ∧ t = s.advance w

theorem mem_iter {f : Pos → List Pos} {a : Re} (hf : Follows f (Accepts a)) (g : Bool) {n : ℕ}
    {s : Pos} (hn : s.post.length ≤ n) (t : Pos) :
    t ∈ iter f g n s ↔ ∃ w, Accepts (.star g a) w ∧ w <+: s.post ∧ t = s.advance w := by
  induction n generalizing s with
  | zero =>
    have hpost : s.post = [] := List.length_eq_zero_iff.mp (by omega)
    rw [iter, List.mem_singleton, hpost]
    constructor
    · rintro rfl
      exact ⟨[], .done, List.prefix_refl _, rfl⟩
    · rintro ⟨w, -, hw, rfl⟩
      rw [List.prefix_nil.mp hw, Pos.advance_nil]
  | succ n ih =>
    have hiter : t ∈ iter f g (n + 1) s ↔
        t = s ∨ ∃ x ∈ f s, x.post.length < s.post.length ∧ t ∈ iter f g n x := by
      cases g <;> simp [iter, and_assoc, or_comm]
    rw [hiter]
    constructor
    · rintro (rfl | ⟨x, hx, hlt, ht⟩)
      · exact ⟨[], .done, List.nil_prefix, rfl⟩
      · obtain ⟨v, hv, hpre, rfl⟩ := (hf s x).mp hx
        obtain ⟨w, hw, hpre', rfl⟩ := (ih (by omega)).mp ht
        refine ⟨v ++ w, .more ?_ hv hw, Pos.append_prefix.mpr ⟨hpre, hpre'⟩,
          Pos.advance_append _ _ _⟩
        rintro rfl
        exact absurd hlt (lt_irrefl _)
    · rintro ⟨w, hw, hpre, rfl⟩
      generalize hr : Re.star g a = r at hw
      cases hw with
      | done => exact .inl rfl
      | @more _ _ v w hne hv hw =>
        obtain ⟨rfl, rfl⟩ := Re.star.inj hr
        obtain ⟨hpre, hpre'⟩ := Pos.append_prefix.mp hpre
        have hlt : (s.advance v).post.length < s.post.length := by
          have hpos := List.length_pos_iff.mpr hne
          have hle := hpre.length_le
          simp only [Pos.advance, List.length_drop]
          omega
        refine .inr ⟨s.advance v, (hf _ _).mpr ⟨v, hv, hpre, rfl⟩, hlt, ?_⟩
        exact (ih (by omega)).mpr ⟨w, hw, hpre', (Pos.advance_append _ _ _).symm⟩
      | _ => cases hr

/-- The matches the engine finds for a plain pattern are what the pattern accepts. -/
theorem follows_of_plain {a : Re} (h : a.plain = true) : Follows (run a) (Accepts a) := by
  induction a with
  | empty =>
    intro s t
    rw [run, List.mem_singleton]
    constructor
    · rintro rfl
      exact ⟨[], .empty, List.nil_prefix, rfl⟩
    · rintro ⟨w, hw, -, rfl⟩
      rw [accepts_empty.mp hw, Pos.advance_nil]
  | set p =>
    intro s t
    obtain ⟨pre, post, caps⟩ := s
    constructor
    · intro ht
      cases post with
      | nil => simp [run] at ht
      | cons c rest =>
        simp only [run] at ht
        split_ifs at ht with hc
        · obtain rfl := List.mem_singleton.mp ht
          exact ⟨[c], .set hc, ⟨rest, rfl⟩, rfl⟩
        · simp at ht
    · rintro ⟨w, hw, ⟨rest, hpost⟩, rfl⟩
      obtain ⟨c, hc, rfl⟩ := accepts_set.mp hw
      dsimp only at hpost
      subst hpost
      simp [run, hc, Pos.advance]
  | seq a b iha ihb =>
    rw [Re.plain, Bool.and_eq_true] at h
    intro s t
    rw [run, List.mem_flatMap]
    constructor
    · rintro ⟨x, hx, ht⟩
      obtain ⟨v, hv, hpre, rfl⟩ := (iha h.1 s x).mp hx
      obtain ⟨w, hw, hpre', rfl⟩ := (ihb h.2 _ t).mp ht
      exact ⟨v ++ w, .seq hv hw, Pos.append_prefix.mpr ⟨hpre, hpre'⟩, Pos.advance_append _ _ _⟩
    · rintro ⟨_, hvw, hpre, rfl⟩
      obtain ⟨v, w, hv, hw, rfl⟩ := accepts_seq.mp hvw
      obtain ⟨hpre, hpre'⟩ := Pos.append_prefix.mp hpre
      exact ⟨s.advance v, (iha h.1 _ _).mpr ⟨v, hv, hpre, rfl⟩,
        (ihb h.2 _ _).mpr ⟨w, hw, hpre', (Pos.advance_append _ _ _).symm⟩⟩
  | alt a b iha ihb =>
    rw [Re.plain, Bool.and_eq_true] at h
    intro s t
    rw [run, List.mem_append, iha h.1 s t, ihb h.2 s t, ← exists_or]
    simp only [accepts_alt, or_and_right]
  | star g a ih =>
    intro s t
    rw [run]
    exact mem_iter (ih h) g (le_refl _) t
  | _ => cases h

end AskFable.Regex

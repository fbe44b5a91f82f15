import Mathlib.Data.List.Infix
import Mathlib.Algebra.BigOperators.Group.List.Basic
import Mathlib.Algebra.GroupWithZero.Nat

/-!
# Greedy admission under a budget

Sizes are taken in order while they fit a cap on their sum and a bound on their number; the
first that overflows ends the taking. Sizes come in groups of a main one and alternatives: when
there is no main one, or it overflows, the alternatives are taken in its place. What is taken
is the longest list of all that could have been.
-/
namespace AskFable.Budget

/-- A main size, or none, and what may stand in for it. -/
structure Group where
  main : Option ℕ
  alternatives : List ℕ

structure Taking where
  taken : List ℕ
  stopped : Bool

variable (cap most : ℕ)

def offer (t : Taking) (n : ℕ) : Taking :=
  if t.stopped = true ∨ most ≤ t.taken.length then t
  else if cap < t.taken.sum + n then ⟨t.taken, true⟩
  else ⟨t.taken ++ [n], false⟩

def visit (t : Taking) (g : Group) : Taking :=
  if t.stopped = true ∨ most ≤ t.taken.length then t
  else
    match g.main with
    | none => g.alternatives.foldl (offer cap most) t
    | some n =>
      if cap < t.taken.sum + n then
        ⟨(g.alternatives.foldl (offer cap most) t).taken, true⟩
      else ⟨t.taken ++ [n], false⟩

/-- Within the cap and the bound. -/
def Fits (p : List ℕ) : Prop := p.length ≤ most ∧ p.sum ≤ cap

/-- The main sizes, and the alternatives where there is none. -/
def straight (gs : List Group) : List ℕ :=
  gs.flatMap fun g => g.main.elim g.alternatives fun n => [n]

/-- What could be taken after `t`: a beginning of the straight sequence, or of the straight
sequence up to a main size that overflows, and its alternatives. -/
def Possible (t : List ℕ) (gs : List Group) (p : List ℕ) : Prop :=
  p <+: t ++ straight gs ∨ ∃ pre n alternatives post, gs = pre ++ ⟨some n, alternatives⟩ :: post ∧
    (t ++ straight pre).sum ≤ cap ∧ cap < (t ++ straight pre).sum + n ∧
    p <+: t ++ straight pre ++ alternatives

section
variable {cap most}

theorem Fits.of_prefix {p q : List ℕ} (h : p <+: q) (hq : Fits cap most q) : Fits cap most p := by
  refine ⟨h.length_le.trans hq.1, ?_⟩
  obtain ⟨r, rfl⟩ := h
  have := hq.2
  rw [List.sum_append] at this
  omega

/-- What has a size too many begins before it. -/
theorem prefix_of_overflow {t r p : List ℕ} {n : ℕ} (h : p <+: t ++ n :: r)
    (hp : Fits cap most p) (hover : most ≤ t.length ∨ cap < t.sum + n) : p <+: t := by
  obtain hle | hlt := Nat.lt_or_ge t.length p.length
  · exfalso
    have hlonger : t ++ [n] <+: p := by
      refine List.prefix_of_prefix_length_le ⟨r, by simp⟩ h ?_
      rw [List.length_append, List.length_singleton]
      exact hle
    obtain ⟨hlen, hsum⟩ := hp.of_prefix hlonger
    rw [List.length_append, List.length_singleton] at hlen
    rw [List.sum_append, List.sum_singleton] at hsum
    omega
  · exact List.prefix_of_prefix_length_le h (List.prefix_append t _) hlt

/-- No more can be taken. -/
def Taking.Blocked (most : ℕ) (t : Taking) : Prop := t.stopped = true ∨ most ≤ t.taken.length

section
variable {t : Taking} {n : ℕ} {alternatives : List ℕ}

theorem offer_blocked (h : t.Blocked most) : offer cap most t n = t := if_pos h

theorem offer_overflow (h : ¬t.Blocked most) (hover : cap < t.taken.sum + n) :
    offer cap most t n = ⟨t.taken, true⟩ := (if_neg h).trans (if_pos hover)

theorem offer_fits (h : ¬t.Blocked most) (hover : ¬cap < t.taken.sum + n) :
    offer cap most t n = ⟨t.taken ++ [n], false⟩ := (if_neg h).trans (if_neg hover)

theorem visit_blocked (h : t.Blocked most) (g : Group) : visit cap most t g = t := if_pos h

theorem visit_none (h : ¬t.Blocked most) : visit cap most t ⟨none, alternatives⟩ =
    alternatives.foldl (offer cap most) t := if_neg h

theorem visit_overflow (h : ¬t.Blocked most) (hover : cap < t.taken.sum + n) :
    visit cap most t ⟨some n, alternatives⟩ =
      ⟨(alternatives.foldl (offer cap most) t).taken, true⟩ := (if_neg h).trans (if_pos hover)

theorem visit_fits (h : ¬t.Blocked most) (hover : ¬cap < t.taken.sum + n) :
    visit cap most t ⟨some n, alternatives⟩ = ⟨t.taken ++ [n], false⟩ :=
  (if_neg h).trans (if_neg hover)

end

theorem foldl_offer_blocked {t : Taking} (h : t.Blocked most) (ns : List ℕ) :
    ns.foldl (offer cap most) t = t := by
  induction ns with
  | nil => rfl
  | cons n ns ih =>
    rw [List.foldl_cons, offer_blocked h, ih]

theorem foldl_visit_blocked {t : Taking} (h : t.Blocked most) (gs : List Group) :
    gs.foldl (visit cap most) t = t := by
  induction gs with
  | nil => rfl
  | cons g gs ih =>
    rw [List.foldl_cons, visit_blocked h, ih]

/-- A row of sizes is taken whole, or the taking is blocked by the first that does not go in. -/
theorem foldl_offer_spec (ns : List ℕ) {t : Taking} (hstop : t.stopped = false)
    (hfits : Fits cap most t.taken) :
    let t' := ns.foldl (offer cap most) t
    t'.taken <+: t.taken ++ ns ∧ Fits cap most t'.taken ∧ t.taken <+: t'.taken ∧
      ((t'.stopped = false ∧ t'.taken = t.taken ++ ns) ∨
        t'.Blocked most ∧ ∀ rest p, p <+: t.taken ++ ns ++ rest → Fits cap most p → p <+: t'.taken) := by
  induction ns generalizing t with
  | nil => exact ⟨by simp, hfits, List.prefix_refl _, .inl ⟨hstop, by simp⟩⟩
  | cons n ns ih =>
    rw [List.foldl_cons]
    by_cases hfull : most ≤ t.taken.length
    · have hblocked : t.Blocked most := .inr hfull
      rw [offer_blocked hblocked, foldl_offer_blocked hblocked]
      refine ⟨List.prefix_append _ _, hfits, List.prefix_refl _, .inr ⟨hblocked, fun rest p hp hpf => ?_⟩⟩
      rw [List.append_assoc] at hp
      exact prefix_of_overflow hp hpf (.inl hfull)
    · have hgo : ¬t.Blocked most := by simp [Taking.Blocked, hstop, hfull]
      by_cases hover : cap < t.taken.sum + n
      · have hblocked : (⟨t.taken, true⟩ : Taking).Blocked most := .inl rfl
        rw [offer_overflow hgo hover, foldl_offer_blocked hblocked]
        refine ⟨List.prefix_append _ _, hfits, List.prefix_refl _, .inr ⟨hblocked, fun rest p hp hpf => ?_⟩⟩
        rw [List.append_assoc] at hp
        exact prefix_of_overflow hp hpf (.inr hover)
      · have hfits' : Fits cap most (t.taken ++ [n]) := by
          constructor
          · rw [List.length_append, List.length_singleton]
            omega
          · rw [List.sum_append, List.sum_singleton]
            omega
        rw [offer_fits hgo hover]
        have := ih (t := ⟨t.taken ++ [n], false⟩) rfl hfits'
        simp only [List.append_assoc, List.singleton_append] at this ⊢
        exact ⟨this.1, this.2.1, (List.prefix_append _ _).trans this.2.2.1, this.2.2.2⟩

@[simp] theorem straight_nil : straight [] = [] := rfl

@[simp] theorem straight_cons_some (n : ℕ) (alternatives : List ℕ) (gs : List Group) :
    straight (⟨some n, alternatives⟩ :: gs) = n :: straight gs := rfl

@[simp] theorem straight_cons_none (alternatives : List ℕ) (gs : List Group) :
    straight (⟨none, alternatives⟩ :: gs) = alternatives ++ straight gs := rfl

/-- What is possible after a group whose main size goes in. -/
theorem possible_cons_some {t p : List ℕ} {n : ℕ} {alternatives : List ℕ} {gs : List Group}
    (hfit : t.sum + n ≤ cap) :
    Possible cap t (⟨some n, alternatives⟩ :: gs) p ↔ Possible cap (t ++ [n]) gs p := by
  refine or_congr (by simp) ⟨?_, ?_⟩
  · rintro ⟨pre, m, alts, post, heq, hsum, hover, hp⟩
    obtain ⟨rfl, hg⟩ | ⟨pre, rfl, rfl⟩ := List.cons_eq_append_iff.mp heq
    · obtain ⟨rfl, -⟩ := Group.mk.inj (List.cons.inj hg).1 |>.imp_left Option.some.inj
      rw [straight_nil, List.append_nil] at hover
      omega
    · exact ⟨pre, m, alts, post, rfl, by simpa using hsum, by simpa using hover, by simpa using hp⟩
  · rintro ⟨pre, m, alts, post, rfl, hsum, hover, hp⟩
    exact ⟨_ :: pre, m, alts, post, rfl, by simpa using hsum, by simpa using hover,
      by simpa using hp⟩

/-- What is possible after a group without a main size. -/
theorem possible_cons_none {t p : List ℕ} {alternatives : List ℕ} {gs : List Group} :
    Possible cap t (⟨none, alternatives⟩ :: gs) p ↔ Possible cap (t ++ alternatives) gs p := by
  refine or_congr (by simp) ⟨?_, ?_⟩
  · rintro ⟨pre, m, alts, post, heq, hsum, hover, hp⟩
    obtain ⟨rfl, hg⟩ | ⟨pre, rfl, rfl⟩ := List.cons_eq_append_iff.mp heq
    · cases (List.cons.inj hg).1
    · exact ⟨pre, m, alts, post, rfl, by simpa using hsum, by simpa using hover, by simpa using hp⟩
  · rintro ⟨pre, m, alts, post, rfl, hsum, hover, hp⟩
    exact ⟨_ :: pre, m, alts, post, rfl, by simpa using hsum, by simpa using hover,
      by simpa using hp⟩

/-- Everything possible begins with what was taken before, or is a beginning of it. -/
theorem Possible.exists_rest {t p : List ℕ} {gs : List Group} (h : Possible cap t gs p) :
    ∃ rest, p <+: t ++ rest := by
  obtain h | ⟨pre, _, alternatives, _, -, -, -, h⟩ := h
  · exact ⟨_, h⟩
  · exact ⟨straight pre ++ alternatives, by rwa [← List.append_assoc]⟩

/-- What is taken is possible, and whatever else is possible and fits is a beginning of it. -/
theorem foldl_visit_greatest (gs : List Group) {t : Taking} (hstop : t.stopped = false)
    (hfits : Fits cap most t.taken) :
    let t' := gs.foldl (visit cap most) t
    Fits cap most t'.taken ∧ Possible cap t.taken gs t'.taken ∧
      ∀ p, Possible cap t.taken gs p → Fits cap most p → p <+: t'.taken := by
  induction gs generalizing t with
  | nil =>
    refine ⟨hfits, .inl (by simp), fun p hp _ => ?_⟩
    obtain hp | ⟨pre, _, _, _, heq, -⟩ := hp
    · simpa using hp
    · simp at heq
  | cons g gs ih =>
    rw [List.foldl_cons]
    by_cases hfull : most ≤ t.taken.length
    · have hblocked : t.Blocked most := .inr hfull
      rw [visit_blocked hblocked, foldl_visit_blocked hblocked]
      refine ⟨hfits, .inl (List.prefix_append _ _), fun p hp hpf => ?_⟩
      obtain ⟨rest, hrest⟩ := hp.exists_rest
      exact List.prefix_of_prefix_length_le hrest (List.prefix_append _ _) (hpf.1.trans hfull)
    · have hgo : ¬t.Blocked most := by simp [Taking.Blocked, hstop, hfull]
      obtain ⟨main, alternatives⟩ := g
      obtain ⟨hbegin, hfits', hgrown, hspec⟩ := foldl_offer_spec alternatives hstop hfits
      cases main with
      | none =>
        rw [visit_none hgo]
        obtain ⟨hgoing, htaken⟩ | ⟨hblocked, hmax⟩ := hspec
        · simp only [possible_cons_none, ← htaken]
          exact ih hgoing hfits'
        · rw [foldl_visit_blocked hblocked]
          refine ⟨hfits', .inl ?_, fun p hp hpf => ?_⟩
          · rw [straight_cons_none, ← List.append_assoc]
            exact hbegin.trans (List.prefix_append _ _)
          · obtain ⟨rest, hrest⟩ := (possible_cons_none.mp hp).exists_rest
            exact hmax rest p hrest hpf
      | some n =>
        by_cases hover : cap < t.taken.sum + n
        · rw [visit_overflow hgo hover, foldl_visit_blocked (.inl rfl)]
          refine ⟨hfits', .inr ⟨[], n, alternatives, gs, rfl, by simpa using hfits.2,
            by simpa using hover, by simpa using hbegin⟩, fun p hp hpf => ?_⟩
          obtain hp | ⟨pre, m, alts, post, heq, hsum, -, hp⟩ := hp
          · exact (prefix_of_overflow hp hpf (.inr hover)).trans hgrown
          · obtain ⟨rfl, hg⟩ | ⟨pre, rfl, rfl⟩ := List.cons_eq_append_iff.mp heq
            · obtain ⟨-, rfl⟩ := Group.mk.inj (List.cons.inj hg).1
              rw [straight_nil, List.append_nil] at hp
              obtain ⟨-, htaken⟩ | ⟨-, hmax⟩ := hspec
              · exact htaken ▸ hp
              · exact hmax [] p (by simpa using hp) hpf
            · -- The sum up to a later main size contains the one that overflows.
              rw [straight_cons_some, List.sum_append, List.sum_cons] at hsum
              omega
        · rw [visit_fits hgo hover]
          simp only [possible_cons_some (Nat.le_of_not_lt hover)]
          refine ih rfl ⟨?_, ?_⟩
          · rw [List.length_append, List.length_singleton]
            omega
          · rw [List.sum_append, List.sum_singleton]
            omega

/-- What grows along a list is bounded on all that is possible when it is on what is taken. -/
theorem bounded_iff (gs : List Group) {cost : List ℕ → ℕ} {bound : ℕ}
    (hcost : ∀ p q, p <+: q → cost p ≤ cost q) :
    cost (gs.foldl (visit cap most) ⟨[], false⟩).taken ≤ bound ↔
      ∀ p, Possible cap [] gs p → Fits cap most p → cost p ≤ bound := by
  have hempty : Fits cap most (⟨[], false⟩ : Taking).taken := ⟨Nat.zero_le _, Nat.zero_le _⟩
  obtain ⟨hfits, hpossible, hmax⟩ := foldl_visit_greatest gs rfl hempty
  exact ⟨fun h p hp hpf => (hcost p _ (hmax p hp hpf)).trans h, fun h => h _ hpossible hfits⟩

end

end AskFable.Budget

import Mathlib.Data.List.Basic
import Mathlib.Tactic.Cases

/-!
# Lists written with a separator

Two lists of parts written with one separator between them read the same exactly when one comes
from the other by moving ends of parts to and from separators inside a part. The separator has
three letters, the outer two the same, and no part begins with a letter of it.
-/
namespace AskFable.Separated

variable {α : Type*}

/-- The same but for where parts end: a part that holds the separator may be cut there. -/
inductive Recut (sep : List α) : List (List α) → List (List α) → Prop
  | nil : Recut sep [] []
  | same (a : List α) {p q : List (List α)} : Recut sep p q → Recut sep (a :: p) (a :: q)
  | left (a d : List α) {p q : List (List α)} :
      Recut sep p (d :: q) → Recut sep (a :: p) ((a ++ sep ++ d) :: q)
  | right (a d : List α) {p q : List (List α)} :
      Recut sep (d :: p) q → Recut sep ((a ++ sep ++ d) :: p) (a :: q)

theorem Recut.eq_nil_iff {sep : List α} {p q : List (List α)} (h : Recut sep p q) :
    p = [] ↔ q = [] := by
  cases h <;> simp

theorem intercalate_append_cons (sep a : List α) {p : List (List α)} (hp : p ≠ []) :
    sep.intercalate (a :: p) = a ++ sep ++ sep.intercalate p := by
  rw [List.intercalate_cons_of_ne_nil hp, List.append_assoc]

/-- What is written behind a part. -/
def behind (sep : List α) : List (List α) → List α
  | [] => []
  | b :: q => sep ++ sep.intercalate (b :: q)

theorem intercalate_behind (sep a : List α) (p : List (List α)) :
    sep.intercalate (a :: p) = a ++ behind sep p := by
  cases p with
  | nil => simp [behind]
  | cons b p => rw [intercalate_append_cons sep a (List.cons_ne_nil b p), behind, List.append_assoc]

/-- A part cut at a separator is written as before. -/
theorem intercalate_cut (sep a d : List α) (q : List (List α)) :
    sep.intercalate ((a ++ sep ++ d) :: q) = sep.intercalate (a :: d :: q) := by
  cases q with
  | nil => simp [List.intercalate_cons_cons]
  | cons b q => simp [List.intercalate_cons_cons]

theorem Recut.intercalate_eq {sep : List α} {p q : List (List α)} (h : Recut sep p q) :
    sep.intercalate p = sep.intercalate q := by
  induction h with
  | nil => rfl
  | @same a p q h ih =>
    by_cases hp : p = []
    · rw [hp, h.eq_nil_iff.mp hp]
    · rw [intercalate_append_cons sep a hp, intercalate_append_cons sep a (hp ∘ h.eq_nil_iff.mpr), ih]
  | @left a d p q h ih =>
    have hp : p ≠ [] := fun hp => nomatch h.eq_nil_iff.mp hp
    rw [intercalate_cut, intercalate_append_cons sep a hp,
      intercalate_append_cons sep a (List.cons_ne_nil d q), ih]
  | @right a d p q h ih =>
    have hq : q ≠ [] := fun hq => nomatch h.eq_nil_iff.mpr hq
    rw [intercalate_cut, intercalate_append_cons sep a hq,
      intercalate_append_cons sep a (List.cons_ne_nil d p), ih]

section
variable {s g : α}

/-- A part begins with a letter that the separator has not. -/
def Begins (s g : α) (a : List α) : Prop := ∃ c r, a = c :: r ∧ c ≠ s ∧ c ≠ g

theorem Begins.of_intercalate {sep d r : List α} {p : List (List α)} (hd : d ≠ [])
    (h : d ++ r = sep.intercalate p) (hp : ∀ a ∈ p, Begins s g a) : Begins s g d := by
  obtain ⟨c, d', rfl⟩ := List.exists_cons_of_ne_nil hd
  cases p with
  | nil => nomatch h
  | cons a p =>
    obtain ⟨c', r', rfl, hs, hg⟩ := hp a List.mem_cons_self
    rw [List.intercalate_cons_cons_left] at h
    obtain ⟨rfl, -⟩ := List.cons.inj h
    exact ⟨c, d', rfl, hs, hg⟩

/-- A longer first part goes on with the separator and something behind it. -/
theorem cut_of_behind (hsg : s ≠ g) {c : List α} (hc : c ≠ []) {p q : List (List α)}
    (hp : ∀ a ∈ p, Begins s g a) (hq : ∀ a ∈ q, Begins s g a)
    (h : behind [s, g, s] p = c ++ behind [s, g, s] q) :
    ∃ d, d ≠ [] ∧ c = [s, g, s] ++ d ∧
      [s, g, s].intercalate p = [s, g, s].intercalate (d :: q) := by
  cases p with
  | nil => exact absurd (List.append_eq_nil_iff.mp h.symm).1 hc
  | cons a p =>
    obtain ⟨x, r, rfl, hxs, hxg⟩ := hp a List.mem_cons_self
    rw [behind, List.intercalate_cons_cons_left] at h
    rw [List.intercalate_cons_cons_left]
    cases q with
    | nil =>
      rw [behind, List.append_nil] at h
      exact ⟨x :: [s, g, s].intercalate (r :: p), List.cons_ne_nil _ _, h.symm, by simp⟩
    | cons b q =>
      obtain ⟨y, t, rfl, hys, hyg⟩ := hq b List.mem_cons_self
      rw [behind, List.intercalate_cons_cons_left] at h
      -- a part that ends inside the separator leaves the next one to begin with a letter of it
      match c, hc with
      | [c₁], _ => simp_all
      | [c₁, c₂], _ => simp_all
      | [c₁, c₂, c₃], _ => simp_all
      | c₁ :: c₂ :: c₃ :: c₄ :: d, _ =>
        simp only [List.cons_append, List.nil_append, List.cons.injEq] at h
        obtain ⟨rfl, rfl, rfl, rfl, hrest⟩ := h
        refine ⟨x :: d, List.cons_ne_nil _ _, rfl, ?_⟩
        rw [hrest, intercalate_append_cons _ (x :: d) (List.cons_ne_nil _ _),
          List.intercalate_cons_cons_left]
        simp

theorem behind_inj {sep : List α} {p q : List (List α)} (hsep : sep ≠ [])
    (h : behind sep p = behind sep q) : sep.intercalate p = sep.intercalate q := by
  cases p with
  | nil =>
    cases q with
    | nil => rfl
    | cons b q => exact absurd (List.append_eq_nil_iff.mp h.symm).1 hsep
  | cons a p =>
    cases q with
    | nil => exact absurd (List.append_eq_nil_iff.mp h).1 hsep
    | cons b q => exact List.append_cancel_left h

theorem begins_cons {a : List α} {p : List (List α)} (ha : Begins s g a)
    (hp : ∀ b ∈ p, Begins s g b) : ∀ b ∈ a :: p, Begins s g b :=
  List.forall_mem_cons.mpr ⟨ha, hp⟩

/-- Where one first part is the other and a part behind it. -/
theorem recut_of_longer (hsg : s ≠ g) {a c : List α} {p q : List (List α)}
    (hp : ∀ x ∈ p, Begins s g x) (hq : ∀ x ∈ q, Begins s g x)
    (h : behind [s, g, s] p = c ++ behind [s, g, s] q)
    (ih : ∀ q', q'.length ≤ q.length + 1 → (∀ x ∈ q', Begins s g x) →
      [s, g, s].intercalate p = [s, g, s].intercalate q' → Recut [s, g, s] p q') :
    Recut [s, g, s] (a :: p) ((a ++ c) :: q) := by
  by_cases hc : c = []
  · subst hc
    rw [List.append_nil]
    exact .same a (ih q (Nat.le_succ _) hq (behind_inj (List.cons_ne_nil _ _) h))
  · obtain ⟨d, hd, rfl, hjoin⟩ := cut_of_behind hsg hc hp hq h
    have hbegins : Begins s g d :=
      .of_intercalate hd ((intercalate_behind _ d q).symm.trans hjoin.symm) hp
    rw [← List.append_assoc]
    exact .left a d (ih (d :: q) (Nat.le_refl _) (begins_cons hbegins hq) hjoin)

theorem Recut.symm {sep : List α} {p q : List (List α)} (h : Recut sep p q) : Recut sep q p := by
  induction h with
  | nil => exact .nil
  | same a _ ih => exact .same a ih
  | left a d _ ih => exact .right a d ih
  | right a d _ ih => exact .left a d ih

/-- Lists that read the same differ only in where parts end. -/
theorem recut_iff (hsg : s ≠ g) {p q : List (List α)} (hp : ∀ a ∈ p, Begins s g a)
    (hq : ∀ a ∈ q, Begins s g a) :
    Recut [s, g, s] p q ↔ [s, g, s].intercalate p = [s, g, s].intercalate q := by
  refine ⟨Recut.intercalate_eq, fun h => ?_⟩
  -- each step uses up a first part, whole or up to a separator in it
  induction hn : p.length + q.length using Nat.strongRecOn generalizing p q with
  | ind n ih =>
    cases p with
    | nil =>
      cases q with
      | nil => exact .nil
      | cons b q =>
        obtain ⟨c, r, rfl, -⟩ := hq b List.mem_cons_self
        rw [List.intercalate_cons_cons_left] at h
        nomatch h
    | cons a p =>
      cases q with
      | nil =>
        obtain ⟨c, r, rfl, -⟩ := hp a List.mem_cons_self
        rw [List.intercalate_cons_cons_left] at h
        nomatch h
      | cons b q =>
        have hp' := (List.forall_mem_cons.mp hp).2
        have hq' := (List.forall_mem_cons.mp hq).2
        rw [List.length_cons, List.length_cons] at hn
        rw [intercalate_behind, intercalate_behind, List.append_eq_append_iff] at h
        obtain ⟨c, rfl, h⟩ | ⟨c, rfl, h⟩ := h
        · exact recut_of_longer hsg hp' hq' h fun q' hlen hq'' hjoin =>
            ih (p.length + q'.length) (by omega) hp' hq'' hjoin rfl
        · exact (recut_of_longer hsg hq' hp' h fun p' hlen hp'' hjoin =>
            ih (q.length + p'.length) (by omega) hq' hp'' hjoin rfl).symm

end

/-- A text without the separator lies on one side of it. -/
theorem infix_append_cons_iff {m a b : List α} {x : α} (hx : x ∉ m) :
    m <:+: a ++ x :: b ↔ m <:+: a ∨ m <:+: b := by
  constructor
  · rintro ⟨s, t, h⟩
    rw [List.append_assoc, List.append_eq_append_iff] at h
    obtain ⟨c, rfl, h⟩ | ⟨c, rfl, h⟩ := h
    · rw [List.append_eq_append_iff] at h
      obtain ⟨d, rfl, -⟩ | ⟨d, rfl, h⟩ := h
      · exact Or.inl ⟨s, d, by simp⟩
      · cases d with
        | nil => exact Or.inl ⟨s, [], by simp⟩
        | cons y d =>
          obtain ⟨rfl, -⟩ := List.cons.inj h
          exact absurd (List.mem_append_right c List.mem_cons_self) hx
    · cases c with
      | nil =>
        cases m with
        | nil => exact Or.inl (List.nil_infix)
        | cons y m =>
          obtain ⟨rfl, -⟩ := List.cons.inj h
          exact absurd List.mem_cons_self hx
      | cons y c =>
        obtain ⟨-, rfl⟩ := List.cons.inj h
        exact Or.inr ⟨c, t, by simp⟩
  · rintro (h | h)
    · exact h.trans (List.prefix_append a (x :: b)).isInfix
    · exact h.trans ⟨a ++ [x], [], by simp⟩

end AskFable.Separated

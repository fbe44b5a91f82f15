import Mathlib.Data.List.Basic

/-!
# Loops that keep some of a list

A loop goes over a list with a state. At each element the state moves on, and then the element
is kept or not. A loop over what another one kept is one loop over the whole list, and a loop
keeps what a predicate says exactly when it does so at every position.
-/
namespace AskFable.Select

variable {α β σ τ : Type*}

/-- The state a loop moves to at an element, and whether it then keeps the element. -/
structure Loop (σ α : Type*) where
  step : σ → α → σ
  keeps : σ → α → Bool

namespace Loop

variable (L : Loop σ α) (M : Loop τ α) {s : σ} {l : List α}

/-- What the loop keeps, entered with a state. -/
def run : σ → List α → List α
  | _, [] => []
  | s, a :: l => if L.keeps (L.step s a) a then a :: run (L.step s a) l else run (L.step s a) l

/-- The loop over elements that are looked at through `f`. -/
def comap (f : β → α) : Loop σ β := ⟨fun s b => L.step s (f b), fun s b => L.keeps s (f b)⟩

/-- Both loops in one: the second one does not see what the first does not keep. -/
def andThen : Loop (σ × τ) α where
  step p a := (L.step p.1 a, if L.keeps (L.step p.1 a) a then M.step p.2 a else p.2)
  keeps p a := L.keeps p.1 a && M.keeps p.2 a

theorem run_cons (s : σ) (a : α) (l : List α) : L.run s (a :: l) =
    if L.keeps (L.step s a) a then a :: L.run (L.step s a) l else L.run (L.step s a) l :=
  rfl

theorem run_map (f : β → α) (s : σ) (l : List β) :
    L.run s (l.map f) = ((L.comap f).run s l).map f := by
  induction l generalizing s with
  | nil => rfl
  | cons b l ih =>
    rw [List.map_cons, run_cons, run_cons, ih]
    by_cases hkeeps : L.keeps (L.step s (f b)) (f b) = true
    · rw [if_pos hkeeps, if_pos (by exact hkeeps)]
      rfl
    · rw [if_neg hkeeps, if_neg (by exact hkeeps)]
      rfl

theorem run_run (s : σ) (t : τ) (l : List α) :
    M.run t (L.run s l) = (L.andThen M).run (s, t) l := by
  induction l generalizing s t with
  | nil => rfl
  | cons a l ih =>
    simp only [run_cons, andThen]
    by_cases hkeeps : L.keeps (L.step s a) a = true
    · simp only [hkeeps, if_true, run_cons, Bool.true_and, ih]
      rfl
    · simp only [hkeeps, Bool.false_eq_true, if_false, Bool.false_and, ih]
      rfl

/-- What does not move the state may be dropped before or after. -/
theorem filter_run_comm {q : α → Bool} (h : ∀ s a, q a = false → L.step s a = s) (s : σ)
    (l : List α) : (L.run s l).filter q = L.run s (l.filter q) := by
  induction l generalizing s with
  | nil => rfl
  | cons a l ih =>
    by_cases hq : q a = true
    · rw [List.filter_cons_of_pos hq, run_cons, run_cons]
      split_ifs
      · rw [List.filter_cons_of_pos hq, ih]
      · exact ih _
    · rw [List.filter_cons_of_neg hq, run_cons, h s a (by simpa using hq)]
      split_ifs
      · rw [List.filter_cons_of_neg hq, ih]
      · exact ih _

theorem run_sublist (s : σ) (l : List α) : (L.run s l).Sublist l := by
  induction l generalizing s with
  | nil => exact List.Sublist.refl _
  | cons a l ih =>
    rw [run_cons]
    split_ifs
    · exact (ih _).cons_cons a
    · exact (ih _).cons a

/-- A loop is a filter exactly when it keeps, at every position, what the filter keeps. -/
theorem run_eq_filter_iff (want : α → Bool) :
    L.run s l = l.filter want ↔ ∀ before a after, l = before ++ a :: after →
      L.keeps ((before ++ [a]).foldl L.step s) a = want a := by
  induction l generalizing s with
  | nil => simp [run]
  | cons b l ih =>
    have htail : (∀ before a after, b :: l = before ++ a :: after →
        L.keeps ((before ++ [a]).foldl L.step s) a = want a) ↔
        L.keeps (L.step s b) b = want b ∧ ∀ before a after, l = before ++ a :: after →
          L.keeps ((before ++ [a]).foldl L.step (L.step s b)) a = want a := by
      constructor
      · intro h
        exact ⟨h [] b l rfl, fun before a after hl => h (b :: before) a after (by rw [hl]; rfl)⟩
      · rintro ⟨hfirst, hrest⟩ before a after hl
        cases before with
        | nil =>
          obtain ⟨rfl, rfl⟩ := List.cons.inj hl
          exact hfirst
        | cons c before =>
          obtain ⟨rfl, htail⟩ := List.cons.inj hl
          exact hrest before a after htail
    rw [htail, ← ih, run_cons]
    by_cases hkeeps : L.keeps (L.step s b) b = true
    · rw [if_pos hkeeps, hkeeps]
      by_cases hwant : want b = true
      · rw [List.filter_cons_of_pos hwant, List.cons_inj_right, hwant]
        simp
      · -- what is kept would be one of the wanted
        rw [List.filter_cons_of_neg hwant]
        refine iff_of_false (fun heq => hwant ?_) fun h => hwant h.1.symm
        have hmem : b ∈ l.filter want := heq ▸ List.mem_cons_self
        exact (List.mem_filter.mp hmem).2
    · rw [if_neg hkeeps]
      by_cases hwant : want b = true
      · -- fewer are kept than are wanted
        rw [List.filter_cons_of_pos hwant]
        refine iff_of_false (fun heq => ?_) fun h => hkeeps (h.1.trans hwant)
        have hall : (L.run (L.step s b) l).filter want = L.run (L.step s b) l := by
          rw [heq, List.filter_cons_of_pos hwant, List.filter_filter]
          simp
        have hle := ((L.run_sublist (L.step s b) l).filter want).length_le
        rw [hall, heq, List.length_cons] at hle
        omega
      · rw [List.filter_cons_of_neg hwant]
        simp only [Bool.not_eq_true] at hkeeps hwant
        simp [hkeeps, hwant]

end Loop

end AskFable.Select

import Mathlib.Logic.Relation
import Mathlib.Data.List.Basic

/-!
# Runs of a deterministic machine

A machine is a step function on states; a run folds it over a list of inputs. The
rules below are the ones invariants of runs are proved with: what every step keeps
holds after every run, a fact that becomes true on the way was made true by one input,
and a history variable may be added without changing the run.
-/
namespace AskFable.Machine

variable {σ ι η : Type*} (step : σ → ι → σ)

/-- What every step preserves holds after every run. -/
theorem foldl_invariant {I : σ → Prop} (hstep : ∀ s i, I s → I (step s i)) {s : σ} (hs : I s)
    (is : List ι) : I (is.foldl step s) := by
  induction is generalizing s with
  | nil => exact hs
  | cons i is ih => exact ih (hstep s i hs)

/-- A fact that holds after a run and not before it is established by one of its inputs. -/
theorem exists_establishing_step {P : σ → Prop} {s : σ} (hs : ¬P s) {is : List ι}
    (h : P (is.foldl step s)) :
    ∃ pre i post, is = pre ++ i :: post ∧ ¬P (pre.foldl step s) ∧
      P (step (pre.foldl step s) i) := by
  induction is generalizing s with
  | nil => exact absurd h hs
  | cons i is ih =>
    by_cases hi : P (step s i)
    · exact ⟨[], i, is, rfl, hs, hi⟩
    · obtain ⟨pre, j, post, rfl, hpre, hj⟩ := ih hi h
      exact ⟨i :: pre, j, post, rfl, hpre, hj⟩

/-- All inputs of a run have a property of the state they come in at. -/
def Along (P : σ → ι → Prop) : σ → List ι → Prop
  | _, [] => True
  | s, i :: is => P s i ∧ Along P (step s i) is

instance decidableAlong {P : σ → ι → Prop} [∀ s i, Decidable (P s i)] :
    (s : σ) → (is : List ι) → Decidable (Along step P s is)
  | _, [] => isTrue trivial
  | s, i :: is =>
    letI : Decidable (Along step P (step s i) is) := decidableAlong (step s i) is
    inferInstanceAs (Decidable (P s i ∧ Along step P (step s i) is))

/-- What every step keeps whose input has a property holds after every run of such inputs. -/
theorem foldl_invariant_along {P : σ → ι → Prop} {I : σ → Prop}
    (hstep : ∀ s i, I s → P s i → I (step s i)) {s : σ} (hs : I s) {is : List ι}
    (his : Along step P s is) : I (is.foldl step s) := by
  induction is generalizing s with
  | nil => exact hs
  | cons i is ih => exact ih (hstep s i hs his.1) his.2

theorem Along.of_append {P : σ → ι → Prop} {s : σ} {is js : List ι}
    (h : Along step P s (is ++ js)) : Along step P s is ∧ Along step P (is.foldl step s) js := by
  induction is generalizing s with
  | nil => exact ⟨trivial, h⟩
  | cons i is ih => exact ⟨⟨h.1, (ih h.2).1⟩, (ih h.2).2⟩

/-- What can be seen of a run, where an input may show something of the state it meets. -/
def observed {ω : Type*} (observe : σ → ι → Option ω) : σ → List ι → List ω
  | _, [] => []
  | s, i :: is => (observe s i).toList ++ observed observe (step s i) is

/-- What is seen is seen at one of the inputs. -/
theorem observed_split {ω : Type*} {observe : σ → ι → Option ω} {s : σ} {is : List ι}
    {a b : List ω} {o : ω} (h : observed step observe s is = a ++ o :: b) :
    ∃ pre i post, is = pre ++ i :: post ∧ observe (pre.foldl step s) i = some o ∧
      observed step observe s pre = a ∧
      observed step observe (step (pre.foldl step s) i) post = b := by
  induction is generalizing s a with
  | nil => simp [observed] at h
  | cons i is ih =>
    rw [observed] at h
    cases ho : observe s i with
    | none =>
      rw [ho] at h
      obtain ⟨pre, j, post, rfl, hj, ha, hb⟩ := ih h
      exact ⟨i :: pre, j, post, rfl, hj, by simpa [observed, ho] using ha, hb⟩
    | some o' =>
      rw [ho, Option.toList_some, List.singleton_append] at h
      cases a with
      | nil =>
        obtain ⟨rfl, hb⟩ := List.cons.inj h
        exact ⟨[], i, is, rfl, ho, rfl, hb⟩
      | cons x a =>
        obtain ⟨rfl, hrest⟩ := List.cons.inj h
        obtain ⟨pre, j, post, rfl, hj, ha, hb⟩ := ih hrest
        exact ⟨i :: pre, j, post, rfl, hj, by simp [observed, ho, ha], hb⟩

/-- All that is seen of a run is good, exactly when each input is one that shows good things
where it comes in. -/
theorem forall_observed_iff {ω : Type*} {observe : σ → ι → Option ω} {I : σ → Prop}
    {P : ω → Prop} {Q : σ → ι → Prop} (hstep : ∀ s i, I s → I (step s i))
    (hgood : ∀ s i, I s → ((∀ o, observe s i = some o → P o) ↔ Q s i)) {s : σ} (hs : I s)
    (is : List ι) : (∀ o ∈ observed step observe s is, P o) ↔ Along step Q s is := by
  induction is generalizing s with
  | nil => simp [observed, Along]
  | cons i is ih =>
    have hfirst : (∀ o ∈ (observe s i).toList, P o) ↔ Q s i := by
      rw [← hgood s i hs]
      simp
    rw [observed, List.forall_mem_append, hfirst, ih (hstep s i hs), Along]

/-- The machine with a history variable: `upd` sees the state before and after a step. -/
def withHistory (upd : σ → σ → η → η) (p : σ × η) (i : ι) : σ × η :=
  (step p.1 i, upd p.1 (step p.1 i) p.2)

@[simp] theorem foldl_withHistory_fst (upd : σ → σ → η → η) (p : σ × η) (is : List ι) :
    (is.foldl (withHistory step upd) p).1 = is.foldl step p.1 := by
  induction is generalizing p with
  | nil => rfl
  | cons i is ih => exact ih _

end AskFable.Machine

import Mathlib.Data.List.Basic

/-!
# Procedures that keep a journal

A procedure answers, and appends to a journal what it asked of the world and what it heard.
Nothing is ever struck out of a journal, so a procedure's effect is the list of entries it
adds: `Adds` states what the answer and these entries satisfy, and is proved by the rules
below from the procedure's parts.
-/
namespace AskFable.Journal

/-- A procedure sees the journal kept so far. -/
def Proc (ε : Type*) (α : Type) := List ε → α × List ε

variable {ε : Type*} {α β : Type}

instance : Monad (Proc ε) where
  pure a log := (a, log)
  bind f g log := g (f log).1 (f log).2

def tell (e : ε) : Proc ε Unit := fun log => ((), log ++ [e])

/-- The number of entries so far: it tells one question to the world from the next. -/
def now : Proc ε ℕ := fun log => (log.length, log)

/-- The answer of a procedure with the entries it made. -/
def recorded {ε α : Type} (f : Proc ε α) : Proc ε (α × List ε) := fun log =>
  (((f log).1, (f log).2.drop log.length), (f log).2)

/-! ### Running a procedure -/

theorem bind_apply (f : Proc ε α) (g : α → Proc ε β) (log : List ε) :
    (f >>= g) log = g (f log).1 (f log).2 := rfl

theorem pure_apply (a : α) (log : List ε) : (Pure.pure a : Proc ε α) log = (a, log) := rfl

theorem tell_apply (e : ε) (log : List ε) : tell e log = ((), log ++ [e]) := rfl

theorem now_apply (log : List ε) : now log = (log.length, log) := rfl

/-! ### What a procedure adds -/

/-- What `f`, started on the journal `old`, answers and adds. -/
def Adds (f : Proc ε α) (old : List ε) (R : α → List ε → Prop) : Prop :=
  ∃ new, (f old).2 = old ++ new ∧ R (f old).1 new

namespace Adds

variable {f : Proc ε α} {old : List ε} {R S : α → List ε → Prop}

theorem mono (h : Adds f old R) (hRS : ∀ a new, R a new → S a new) : Adds f old S := by
  obtain ⟨new, hnew, hR⟩ := h
  exact ⟨new, hnew, hRS _ _ hR⟩

theorem and (h : Adds f old R) (h' : Adds f old S) : Adds f old fun a new => R a new ∧ S a new := by
  obtain ⟨new, hnew, hR⟩ := h
  obtain ⟨new', hnew', hS⟩ := h'
  have hsame : new' = new := List.append_cancel_left (hnew'.symm.trans hnew)
  exact ⟨new, hnew, hR, hsame ▸ hS⟩

theorem pure {a : α} (h : R a []) : Adds (Pure.pure a : Proc ε α) old R :=
  ⟨[], (List.append_nil old).symm, h⟩

/-- What comes after `f` may rest on what `f` did answer. -/
theorem bind_eq {g : α → Proc ε β} {Q : β → List ε → Prop} (hf : Adds f old R)
    (hg : ∀ a new, f old = (a, old ++ new) → R a new →
      Adds (g a) (old ++ new) fun b more => Q b (new ++ more)) :
    Adds (f >>= g) old Q := by
  obtain ⟨new, hnew, hR⟩ := hf
  have heq : f old = ((f old).1, old ++ new) := Prod.ext rfl hnew
  obtain ⟨more, hmore, hQ⟩ := hg _ _ heq hR
  refine ⟨new ++ more, ?_, ?_⟩
  · rw [bind_apply, hnew, hmore, List.append_assoc]
  · rw [bind_apply, hnew]
    exact hQ

theorem bind {g : α → Proc ε β} {Q : β → List ε → Prop} (hf : Adds f old R)
    (hg : ∀ a new, R a new → Adds (g a) (old ++ new) fun b more => Q b (new ++ more)) :
    Adds (f >>= g) old Q := hf.bind_eq fun a new _ => hg a new

theorem recorded {ε α : Type} {f : Proc ε α} {old : List ε} {R : α → List ε → Prop}
    (h : Adds f old R) : Adds (Journal.recorded f) old fun p new => p.2 = new ∧ R p.1 new := by
  obtain ⟨new, hnew, hR⟩ := h
  refine ⟨new, hnew, ?_, hR⟩
  change (f old).2.drop old.length = new
  rw [hnew, List.drop_left]

theorem extends_old (h : Adds f old R) : old <+: (f old).2 := by
  obtain ⟨new, hnew, -⟩ := h
  rw [hnew]
  exact List.prefix_append old new

/-- An entry made just before the answer. -/
theorem tell_pure {e : ε} {a : α} (h : R a [e]) :
    Adds (Journal.tell e >>= fun _ => Pure.pure a) old R := ⟨[e], rfl, h⟩

theorem now {R : ℕ → List ε → Prop} (h : R old.length []) : Adds Journal.now old R :=
  ⟨[], (List.append_nil old).symm, h⟩

/-- The answer and the journal a procedure leaves, where it starts on an empty one. -/
theorem run (h : Adds f [] R) : R (f []).1 (f []).2 := by
  obtain ⟨new, hnew, hR⟩ := h
  rw [List.nil_append] at hnew
  rw [hnew]
  exact hR

end Adds

end AskFable.Journal

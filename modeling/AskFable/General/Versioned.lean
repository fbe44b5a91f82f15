import Mathlib.Data.List.Count
import Mathlib.Data.List.Induction
import Mathlib.Logic.Function.Basic

/-!
# A cell with a version counter

A cell is absent (version 0) or present with a positive version. A write adds one, also
when it creates the cell, and a removal starts over. A version that is read and still
there later says that nothing happened in between, unless the cell was removed and
written up to the same version again.
-/
namespace AskFable.Versioned

inductive Event
  | write
  | remove
  | idle
  deriving DecidableEq, Repr

def next (n : ℕ) : Event → ℕ
  | .write => n + 1
  | .remove => 0
  | .idle => n

/-- The version after a sequence of events. -/
def after (n : ℕ) (es : List Event) : ℕ := es.foldl next n

/-- The writes after the last removal. -/
def writesSince (es : List Event) : ℕ :=
  (es.reverse.takeWhile fun e => e != .remove).count .write

theorem after_append (n : ℕ) (es : List Event) (e : Event) :
    after n (es ++ [e]) = next (after n es) e := by
  rw [after, List.foldl_append, List.foldl_cons, List.foldl_nil, ← after]

theorem after_of_kept (n : ℕ) {es : List Event} (h : .remove ∉ es) :
    after n es = n + es.count .write := by
  induction es generalizing n with
  | nil => rfl
  | cons e es ih =>
    rw [List.mem_cons, not_or] at h
    have hrest := ih (next n e) h.2
    rw [after, List.foldl_cons, ← after, hrest]
    cases e with
    | write => simp only [next, List.count_cons_self]; omega
    | remove => exact absurd rfl h.1
    | idle => simp [next]

theorem writesSince_append (es : List Event) (e : Event) :
    writesSince (es ++ [e]) =
      match e with
      | .write => writesSince es + 1
      | .remove => 0
      | .idle => writesSince es := by
  cases e <;> simp [writesSince]

/-- After a removal the version counts the writes since. -/
theorem after_of_removed (n : ℕ) {es : List Event} (h : .remove ∈ es) :
    after n es = writesSince es := by
  induction es using List.reverseRecOn with
  | nil => exact absurd h (List.not_mem_nil)
  | append_singleton es e ih =>
    rw [writesSince_append, after_append]
    cases e with
    | write =>
      have hes : .remove ∈ es := by simpa using h
      rw [ih hes, next]
    | remove => rfl
    | idle =>
      have hes : .remove ∈ es := by simpa using h
      rw [ih hes, next]

/-- An unchanged version proves that nothing happened, exactly when the cell was not
removed or has not been written back up to that version. -/
theorem unchanged_iff {n : ℕ} {es : List Event} :
    (after n es = n → ∀ e ∈ es, e = .idle) ↔ (.remove ∉ es ∨ writesSince es ≠ n) := by
  by_cases h : .remove ∈ es
  · rw [after_of_removed n h]
    constructor
    · intro hidle
      refine .inr fun heq => ?_
      exact absurd (hidle heq .remove h) (by decide)
    · rintro (hkept | hne) heq
      · exact absurd h hkept
      · exact absurd heq hne
  · rw [after_of_kept n h]
    refine ⟨fun _ => .inl h, fun _ heq e he => ?_⟩
    have hcount : es.count .write = 0 := by omega
    cases e with
    | write => exact absurd (List.count_pos_iff.mpr he) (by omega)
    | remove => exact absurd he h
    | idle => rfl

/-! ### Readers that save with the version they saw -/

/-- What a reader remembers: the version it last saw, and when it loaded and saved. -/
structure View where
  version : ℕ
  loadedAt : ℕ
  savedAt : Option ℕ
  deriving DecidableEq

structure Optimistic (ρ : Type*) where
  version : ℕ
  clock : ℕ
  views : ρ → Option View

inductive Move (ρ : Type*)
  | other (e : Event)
  | load (r : ρ)
  | save (r : ρ)

variable {ρ : Type*} [DecidableEq ρ]

/-- A save goes through only at the version the reader saw. -/
def Optimistic.step (s : Optimistic ρ) : Move ρ → Optimistic ρ
  | .other e => { s with version := next s.version e, clock := s.clock + 1 }
  | .load r =>
    { s with
      clock := s.clock + 1
      views := Function.update s.views r (some ⟨s.version, s.clock, none⟩) }
  | .save r =>
    match s.views r with
    | none => { s with clock := s.clock + 1 }
    | some v =>
      if v.version = s.version then
        { version := s.version + 1
          clock := s.clock + 1
          views := Function.update s.views r (some ⟨s.version + 1, v.loadedAt, some s.clock⟩) }
      else { s with clock := s.clock + 1 }

theorem Optimistic.step_save_level {s : Optimistic ρ} {r : ρ} {v : View}
    (hv : s.views r = some v) (h : v.version = s.version) :
    s.step (.save r) =
      { version := s.version + 1
        clock := s.clock + 1
        views := Function.update s.views r (some ⟨s.version + 1, v.loadedAt, some s.clock⟩) } := by
  simp only [Optimistic.step, hv, if_pos h]

theorem Optimistic.step_save_behind {s : Optimistic ρ} {r : ρ}
    (h : ∀ v, s.views r = some v → v.version ≠ s.version) :
    s.step (.save r) = { s with clock := s.clock + 1 } := by
  cases hv : s.views r with
  | none => simp only [Optimistic.step, hv]
  | some v => simp only [Optimistic.step, hv, if_neg (h v hv)]

/-- One of two readers loaded only after the other's last save. -/
def Apart (v w : View) : Prop :=
  ∀ t u, v.savedAt = some t → w.savedAt = some u → t < w.loadedAt ∨ u < v.loadedAt

/-- No reader is ahead of the cell, one that is level with it has seen every save, and
readers that saved are apart. -/
structure Fresh (s : Optimistic ρ) : Prop where
  behind : ∀ r v, s.views r = some v → v.version ≤ s.version
  level : ∀ r v, s.views r = some v → v.version = s.version →
    ∀ q w, q ≠ r → s.views q = some w → ∀ t, w.savedAt = some t → t < v.loadedAt
  past : ∀ r v, s.views r = some v → ∀ t, v.savedAt = some t → t < s.clock
  apart : ∀ r v q w, q ≠ r → s.views r = some v → s.views q = some w → Apart v w

omit [DecidableEq ρ] in
theorem Fresh.start (version clock : ℕ) :
    Fresh (⟨version, clock, fun _ => none⟩ : Optimistic ρ) := by
  constructor <;> simp

omit [DecidableEq ρ] in
theorem Fresh.other {s : Optimistic ρ} (h : Fresh s) {e : Event} (he : e ≠ .remove) :
    Fresh { s with version := next s.version e, clock := s.clock + 1 } := by
  have hle : s.version ≤ next s.version e := by
    cases e with
    | write => exact Nat.le_succ _
    | remove => exact absurd rfl he
    | idle => exact Nat.le_refl _
  refine ⟨fun r v hv => Nat.le_trans (h.behind r v hv) hle, fun r v hv heq => ?_,
    fun r v hv t ht => Nat.lt_succ_of_lt (h.past r v hv t ht), h.apart⟩
  -- a write leaves every reader behind, so only an idle event keeps one level
  have hbehind := h.behind r v hv
  have hlevel : v.version = s.version := by
    change v.version = next s.version e at heq
    omega
  exact h.level r v hv hlevel

theorem Fresh.load {s : Optimistic ρ} (h : Fresh s) (r : ρ) : Fresh (s.step (.load r)) := by
  constructor
  · intro q w hw
    by_cases hq : q = r
    · subst hq
      simp only [Optimistic.step, Function.update_self, Option.some.injEq] at hw
      rw [← hw]
      exact Nat.le_refl _
    · simp only [Optimistic.step, Function.update_of_ne hq] at hw
      exact h.behind q w hw
  · intro p v hv heq q w hqp hw t ht
    by_cases hq : q = r
    · subst hq
      simp only [Optimistic.step, Function.update_self, Option.some.injEq] at hw
      rw [← hw] at ht
      exact absurd ht (by simp)
    · simp only [Optimistic.step, Function.update_of_ne hq] at hw
      by_cases hp : p = r
      · subst hp
        simp only [Optimistic.step, Function.update_self, Option.some.injEq] at hv
        rw [← hv]
        exact h.past q w hw t ht
      · simp only [Optimistic.step, Function.update_of_ne hp] at hv
        exact h.level p v hv heq q w hqp hw t ht
  · intro q w hw t ht
    by_cases hq : q = r
    · subst hq
      simp only [Optimistic.step, Function.update_self, Option.some.injEq] at hw
      rw [← hw] at ht
      exact absurd ht (by simp)
    · simp only [Optimistic.step, Function.update_of_ne hq] at hw
      exact Nat.lt_succ_of_lt (h.past q w hw t ht)
  · intro p v q w hqp hv hw t u ht hu
    by_cases hp : p = r
    · subst hp
      simp only [Optimistic.step, Function.update_self, Option.some.injEq] at hv
      rw [← hv] at ht
      exact absurd ht (by simp)
    by_cases hq : q = r
    · subst hq
      simp only [Optimistic.step, Function.update_self, Option.some.injEq] at hw
      rw [← hw] at hu
      exact absurd hu (by simp)
    simp only [Optimistic.step, Function.update_of_ne hp] at hv
    simp only [Optimistic.step, Function.update_of_ne hq] at hw
    exact h.apart p v q w hqp hv hw t u ht hu

/-- The saver was level with the cell, so it had seen every other reader's save. -/
theorem Fresh.saved {s : Optimistic ρ} (h : Fresh s) {r : ρ} {v : View} (hv : s.views r = some v)
    (hlevel : v.version = s.version) :
    Fresh
      { version := s.version + 1
        clock := s.clock + 1
        views := Function.update s.views r (some ⟨s.version + 1, v.loadedAt, some s.clock⟩) } := by
  have hseen := h.level r v hv hlevel
  constructor
  · intro q w hw
    by_cases hq : q = r
    · subst hq
      simp only [Function.update_self, Option.some.injEq] at hw
      exact hw ▸ Nat.le_refl _
    · simp only [Function.update_of_ne hq] at hw
      exact Nat.le_trans (h.behind q w hw) (Nat.le_succ _)
  · intro p x hx heq q w hqp hw t ht
    by_cases hp : p = r
    · subst hp
      simp only [Function.update_self, Option.some.injEq] at hx
      simp only [Function.update_of_ne hqp] at hw
      rw [← hx]
      exact hseen q w hqp hw t ht
    · simp only [Function.update_of_ne hp] at hx
      have := h.behind p x hx
      change x.version = s.version + 1 at heq
      omega
  · intro q w hw t ht
    by_cases hq : q = r
    · subst hq
      simp only [Function.update_self, Option.some.injEq] at hw
      rw [← hw, Option.some.injEq] at ht
      change t < s.clock + 1
      omega
    · simp only [Function.update_of_ne hq] at hw
      exact Nat.lt_succ_of_lt (h.past q w hw t ht)
  · intro p x q w hqp hx hw t u ht hu
    by_cases hp : p = r
    · subst hp
      simp only [Function.update_self, Option.some.injEq] at hx
      simp only [Function.update_of_ne hqp] at hw
      rw [← hx]
      exact .inr (hseen q w hqp hw u hu)
    simp only [Function.update_of_ne hp] at hx
    by_cases hq : q = r
    · subst hq
      simp only [Function.update_self, Option.some.injEq] at hw
      rw [← hw]
      exact .inl (hseen p x hp hx t ht)
    · simp only [Function.update_of_ne hq] at hw
      exact h.apart p x q w hqp hx hw t u ht hu

theorem Fresh.step {s : Optimistic ρ} (h : Fresh s) {m : Move ρ} (hm : m ≠ .other .remove) :
    Fresh (s.step m) := by
  have hidle : Fresh { s with clock := s.clock + 1 } := h.other (e := .idle) (by decide)
  cases m with
  | other e => exact h.other fun he => hm (he ▸ rfl)
  | load r => exact h.load r
  | save r =>
    by_cases hlevel : ∃ v, s.views r = some v ∧ v.version = s.version
    · obtain ⟨v, hv, hlevel⟩ := hlevel
      rw [Optimistic.step_save_level hv hlevel]
      exact h.saved hv hlevel
    · rw [Optimistic.step_save_behind fun v hv heq => hlevel ⟨v, hv, heq⟩]
      exact hidle

/-- While the cell is not removed, readers that saved are apart after any run. -/
theorem Fresh.run {s : Optimistic ρ} (h : Fresh s) {ms : List (Move ρ)}
    (hms : .other .remove ∉ ms) : Fresh (ms.foldl Optimistic.step s) := by
  induction ms generalizing s with
  | nil => exact h
  | cons m ms ih =>
    rw [List.mem_cons, not_or] at hms
    exact ih (h.step (Ne.symm hms.1)) hms.2

end AskFable.Versioned

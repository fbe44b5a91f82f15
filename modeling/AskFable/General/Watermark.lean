import Mathlib.Data.List.Chain
import Mathlib.Data.List.Induction
import Mathlib.Order.MinMax
import Mathlib.Order.Monotone.Basic

/-!
# A register with a floor

Values are written one after the other. A writer's guard can compare a new value with the
current one only; a reader compares the value it sees with the largest it has ever seen.
Both subtract the same slack, `lower`. That no reader is ever refused says that every
value is above the floor of all earlier ones, which is more than each being above the
floor of its predecessor.
-/
namespace AskFable.Watermark

variable {α : Type*} [LinearOrder α] (lower : α → α)

/-- Each value is above the floor of every earlier one. -/
def Floored (xs : List α) : Prop := xs.Pairwise fun x y => lower x ≤ y

/-- Each value is above the floor of the one before it. -/
def Guarded (xs : List α) : Prop := xs.IsChain fun x y => lower x ≤ y

/-- A value the writer's guard lets through and the reader's does not: above the floor of
the current value and below that of an earlier one. -/
def Gap (pre : List α) (y : α) : Prop :=
  (∀ c ∈ pre.getLast?, lower c ≤ y) ∧ ∃ x ∈ pre, y < lower x

omit [LinearOrder α] in
/-- Pairwise relations are checked value by value against the past. -/
theorem pairwise_iff_past {R : α → α → Prop} {xs : List α} :
    xs.Pairwise R ↔ ∀ pre y, pre ++ [y] <+: xs → ∀ x ∈ pre, R x y := by
  constructor
  · intro h pre y hpre x hx
    have hp := h.sublist hpre.sublist
    exact (List.pairwise_append.mp hp).2.2 x hx y (List.mem_singleton_self y)
  · intro h
    induction xs using List.reverseRecOn with
    | nil => exact .nil
    | append_singleton xs y ih =>
      refine List.pairwise_append.mpr ⟨ih fun pre z hpre => ?_, List.pairwise_singleton _ _, ?_⟩
      · exact h pre z (hpre.trans (List.prefix_append _ _))
      · intro x hx z hz
        rw [List.mem_singleton.mp hz]
        exact h xs y (List.prefix_refl _) x hx

/-- What the writer's guard misses is exactly the gap. -/
theorem floored_iff_noGap {xs : List α} (hguard : Guarded lower xs) :
    Floored lower xs ↔ ∀ pre y, pre ++ [y] <+: xs → ¬Gap lower pre y := by
  unfold Floored
  rw [pairwise_iff_past]
  refine forall₂_congr fun pre y => ?_
  refine imp_congr_right fun hpre => ?_
  have hlast : ∀ c ∈ pre.getLast?, lower c ≤ y := by
    intro c hc
    have hchain := hguard.prefix hpre
    exact (List.isChain_append.mp hchain).2.2 c hc y (by simp)
  constructor
  · rintro h ⟨-, x, hx, hlt⟩
    exact absurd (h x hx) (not_le.mpr hlt)
  · intro h x hx
    by_contra hlt
    exact h ⟨hlast, x, hx, not_le.mp hlt⟩

/-! ### Readers -/

inductive Event (α : Type*)
  | write (x : α)
  | read

/-- The values written. -/
def writes : List (Event α) → List α
  | [] => []
  | .write x :: es => x :: writes es
  | .read :: es => writes es

/-- The mark after a value was accepted. -/
def note (mark : Option α) (x : α) : α := mark.elim x (max x)

/-- Whether the mark forbids a value. -/
def refused (mark : Option α) (x : α) : Prop := ∃ m ∈ mark, x < lower m

instance (mark : Option α) (x : α) : Decidable (refused lower mark x) :=
  decidable_of_iff (mark.any fun m => decide (x < lower m)) (by cases mark <;> simp [refused])

/-- Some read of the run is refused, from a current value and a mark on. -/
def Refusal : Option α → Option α → List (Event α) → Prop
  | _, _, [] => False
  | _, mark, .write x :: es => Refusal (some x) mark es
  | none, mark, .read :: es => Refusal none mark es
  | some c, mark, .read :: es =>
    refused lower mark c ∨ (¬refused lower mark c ∧ Refusal (some c) (some (note mark c)) es)

theorem note_mem {mark : Option α} {x : α} {pre : List α} (hmark : ∀ m ∈ mark, m ∈ pre)
    (hx : x ∈ pre) : note mark x ∈ pre := by
  cases mark with
  | none => exact hx
  | some m =>
    rcases max_choice x m with h | h
    · rw [show note (some m) x = x from h]
      exact hx
    · rw [show note (some m) x = m from h]
      exact hmark m rfl

/-- Floored values are never refused, whenever they are read. -/
theorem not_refusal (hlower : ∀ x, lower x ≤ x) (pre : List α) {es : List (Event α)}
    {mark : Option α} (hmark : ∀ m ∈ mark, m ∈ pre) (h : Floored lower (pre ++ writes es)) :
    ¬Refusal lower pre.getLast? mark es := by
  induction es generalizing pre mark with
  | nil => simp [Refusal]
  | cons e es ih =>
    cases e with
    | write x =>
      have hnext : ¬Refusal lower (pre ++ [x]).getLast? mark es := ih (pre ++ [x])
        (fun m hm => List.mem_append_left _ (hmark m hm)) (by simpa [writes] using h)
      simpa [Refusal] using hnext
    | read =>
      rw [writes] at h
      cases hc : pre.getLast? with
      | none =>
        have hnext := ih pre hmark h
        simpa [Refusal, hc] using hnext
      | some c =>
        have hcmem : c ∈ pre := List.mem_of_getLast? hc
        have hpass : ¬refused lower mark c := by
          rintro ⟨m, hm, hlt⟩
          obtain ⟨init, rfl⟩ := List.getLast?_eq_some_iff.mp hc
          rcases List.mem_append.mp (hmark m hm) with hinit | hinit
          · have hp := (List.pairwise_append.mp (List.pairwise_append.mp h).1).2.2
            exact absurd (hp m hinit c (List.mem_singleton_self c)) (not_le.mpr hlt)
          · rw [List.mem_singleton.mp hinit] at hlt
            exact absurd (hlower c) (not_le.mpr hlt)
        have hnext : ¬Refusal lower pre.getLast? (some (note mark c)) es := ih pre
          (fun m hm => Option.some.inj hm ▸ note_mem hmark hcmem) h
        rw [hc] at hnext
        simp [Refusal, hpass, hnext]

/-- The reader who looks after every write. -/
def vigilant (xs : List α) : List (Event α) := xs.flatMap fun x => [.write x, .read]

/-- The vigilant reader misses nothing. -/
theorem floored_of_vigilant (hmono : Monotone lower) (pre : List α) {xs : List α}
    {cur mark : Option α}
    (hmark : ∀ x ∈ pre, ∃ m ∈ mark, x ≤ m) (hpre : Floored lower pre)
    (h : ¬Refusal lower cur mark (vigilant xs)) : Floored lower (pre ++ xs) := by
  induction xs generalizing pre cur mark with
  | nil => simpa using hpre
  | cons y xs ih =>
    have hread : ¬(refused lower mark y ∨
        (¬refused lower mark y ∧ Refusal lower (some y) (some (note mark y)) (vigilant xs))) := h
    rw [not_or] at hread
    have hnext : ¬Refusal lower (some y) (some (note mark y)) (vigilant xs) :=
      fun hr => hread.2 ⟨hread.1, hr⟩
    have hfloor : ∀ x ∈ pre, lower x ≤ y := by
      intro x hx
      obtain ⟨m, hm, hxm⟩ := hmark x hx
      exact (hmono hxm).trans (not_lt.mp fun hlt => hread.1 ⟨m, hm, hlt⟩)
    have hmark' : ∀ x ∈ pre ++ [y], ∃ m ∈ some (note mark y), x ≤ m := by
      intro x hx
      refine ⟨_, rfl, ?_⟩
      rcases List.mem_append.mp hx with hx | hx
      · obtain ⟨m, hm, hxm⟩ := hmark x hx
        cases hm
        exact hxm.trans (le_max_right y m)
      · rw [List.mem_singleton.mp hx]
        cases mark with
        | none => exact le_refl y
        | some m => exact le_max_left y m
    have hpre' : Floored lower (pre ++ [y]) := by
      refine List.pairwise_append.mpr ⟨hpre, List.pairwise_singleton _ _, fun x hx z hz => ?_⟩
      rw [List.mem_singleton.mp hz]
      exact hfloor x hx
    simpa using ih (pre ++ [y]) hmark' hpre' hnext

end AskFable.Watermark

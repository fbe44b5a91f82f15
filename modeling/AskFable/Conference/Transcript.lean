import AskFable.General.Tail
import AskFable.Python.Text

/-!
# The transcript a turn is shown

`_render` keeps the seed, the blind round and the newest open turns. It counts each entry
with a separator behind it, and the line that says how many turns are missing not at all. So
the text is two characters shorter than what was counted, and where turns are missing it is
longer by that line.
-/
namespace AskFable.Conference
open AskFable.Text AskFable.Tail

/-- `_TRANSCRIPT_BUDGET`. -/
def TRANSCRIPT_BUDGET : ℤ := 60000

def BREAK : Str := txt "\n\n"

/-- `"\n\n".join(…)`. -/
def joined (xs : List Str) : Str := BREAK.intercalate xs

/-- What an entry is counted as. -/
def cost (x : Str) : ℤ := x.length + 2

/-- The line in place of the turns that are missing. -/
def marker (elided : ℕ) : Str :=
  txt "[… " ++ natStr elided ++ txt " earlier turns elided to fit the transcript budget …]"

/-- `budget or _TRANSCRIPT_BUDGET`. -/
def budgetOr : Option ℤ → ℤ
  | some b => if b = 0 then TRANSCRIPT_BUDGET else b
  | none => TRANSCRIPT_BUDGET

/-- The loop of `_render`, newest turn first; what is kept is put in order on the way. -/
def keepLoop (budget : ℤ) : ℤ → List Str → List Str → List Str
  | _, kept, [] => kept
  | spent, kept, line :: older =>
    if budget < spent + line.length + 2 ∧ kept ≠ [] then kept
    else keepLoop budget (spent + (line.length + 2)) (line :: kept) older

/-- `kept`, before the line about the missing turns is put in. -/
def keptTurns (budget : ℤ) (head rest : List Str) : List Str :=
  keepLoop budget (head.map cost).sum [] rest.reverse

/-- The text of some newest turns, with the number of those that are missing. -/
def shown (head : List Str) (elided : ℕ) (kept : List Str) : Str :=
  joined (head ++ if elided = 0 then kept else marker elided :: kept)

/-- `_render`. -/
def render (entries : List Str) (seeds blind : ℕ) (budget : Option ℤ) : Str :=
  let head := entries.take (seeds + blind)
  let rest := entries.drop (seeds + blind)
  let kept := keptTurns (budgetOr budget) head rest
  shown head (rest.length - kept.length) kept

/-! ### What is counted -/

theorem cost_nonneg (x : Str) : 0 ≤ cost x := by
  unfold cost
  omega

theorem keepLoop_eq (budget base : ℤ) (spent : ℤ) (kept older : List Str) :
    keepLoop budget (base + spent) kept older = take cost (budget - base) spent kept older := by
  induction older generalizing spent kept with
  | nil => rfl
  | cons line older ih =>
    have hcount : base + spent + (line.length + 2) = base + (spent + cost line) := by
      unfold cost
      omega
    have htest : budget < base + spent + line.length + 2 ↔ budget - base < spent + cost line := by
      unfold cost
      omega
    rw [keepLoop, take, hcount, ih]
    simp only [htest]

theorem keptTurns_longest (budget : ℤ) (head rest : List Str) :
    Longest cost (budget - total cost head) rest (keptTurns budget head rest) := by
  have h := keepLoop_eq budget (total cost head) 0 [] rest.reverse
  rw [Int.add_zero] at h
  rw [keptTurns, show (head.map cost).sum = total cost head from rfl, h]
  exact take_newest rest

theorem length_joined {xs : List Str} (h : xs ≠ []) :
    ((joined xs).length : ℤ) = total cost xs - 2 := by
  induction xs with
  | nil => exact absurd rfl h
  | cons x xs ih =>
    cases xs with
    | nil => simp [joined, total, cost]
    | cons y ys =>
      have hcons : joined (x :: y :: ys) = x ++ (BREAK ++ joined (y :: ys)) := by
        simp [joined, List.intercalate]
      have hbreak : BREAK.length = 2 := rfl
      rw [hcons, List.length_append, List.length_append, hbreak, total_cons, cost]
      have hrest := ih (List.cons_ne_nil y ys)
      push_cast
      omega

theorem length_shown {head kept : List Str} {elided : ℕ} (h : head ++ kept ≠ []) :
    ((shown head elided kept).length : ℤ) =
      total cost (head ++ kept) - 2 + if elided = 0 then 0 else (marker elided).length + 2 := by
  unfold shown
  split_ifs with hzero
  · rw [length_joined h]
    omega
  · have hne : head ++ marker elided :: kept ≠ [] := by simp
    rw [length_joined hne, total_append, total_append, total_cons, cost]
    omega

/-! ### What is kept, and what fits -/

/-- The head and the newest turns, at least one of them, in order, with the number of those
that are missing. -/
structure Kept (head rest kept : List Str) (text : Str) : Prop where
  suffix : kept <:+ rest
  nonempty : rest ≠ [] → kept ≠ []
  text : text = shown head (rest.length - kept.length) kept

/-- A turn is missing only where the text with it and those after it exceeds the budget. -/
def Needed (budget : ℤ) (head rest kept : List Str) : Prop :=
  ∀ more, more ≠ [] → more ++ kept <:+ rest →
    budget < (shown head (rest.length - (more ++ kept).length) (more ++ kept)).length

/-- The head and the newest turn alone are within the budget. -/
def Feasible (budget : ℤ) (head rest : List Str) : Prop :=
  (joined (head ++ rest.getLast?.toList)).length ≤ budget

instance (budget : ℤ) (head rest : List Str) : Decidable (Feasible budget head rest) :=
  inferInstanceAs (Decidable (_ ≤ budget))

/-- Turns are dropped although the whole transcript is within the budget: it is exactly as
long as the budget, or one character shorter. -/
def Tight (budget : ℤ) (head rest : List Str) : Prop :=
  2 ≤ rest.length ∧ ((joined (head ++ rest)).length : ℤ) ≤ budget ∧
    budget ≤ (joined (head ++ rest)).length + 1

/-- Where turns are missing, what the others leave of the budget has room for the line that
says so. -/
def Roomy (budget : ℤ) (head rest : List Str) : Prop :=
  ∀ kept, Longest cost (budget - total cost head) rest kept → kept ≠ rest →
    total cost (head ++ kept) + (marker (rest.length - kept.length)).length ≤ budget

section
variable {budget : ℤ} {head rest kept : List Str}
  (hkept : Longest cost (budget - total cost head) rest kept)
include hkept

theorem needed_iff : Needed budget head rest kept ↔ ¬Tight budget head rest := by
  constructor
  · rintro hneeded ⟨htwo, hle, hge⟩
    have hne : head ++ rest ≠ [] := by
      have hrest := List.length_pos_iff.mp (Nat.zero_lt_two.trans_le htwo)
      simp [hrest]
    rw [length_joined hne] at hle hge
    rw [total_append] at hle hge
    obtain ⟨more, rfl⟩ := hkept.suffix
    by_cases hmore : more = []
    · subst hmore
      rw [List.nil_append] at htwo hge
      rcases hkept.fits with hone | hfits
      · omega
      · omega
    · have hover := hneeded more hmore List.suffix_rfl
      rw [Nat.sub_self, length_shown hne, total_append, if_pos rfl] at hover
      omega
  · intro htight more hmore hsuffix
    have hover := hkept.lt_total cost_nonneg hmore hsuffix
    have hne : head ++ (more ++ kept) ≠ [] := by simp [hmore]
    rw [length_shown hne, total_append]
    split_ifs with hzero
    · -- nothing else is missing: the text is the whole transcript
      have hlen := hsuffix.length_le
      obtain rfl := hsuffix.eq_of_length (by omega)
      have hpos := List.length_pos_iff.mpr hmore
      have hkeptpos := List.length_pos_iff.mpr (hkept.nonempty (by simp [hmore]))
      have htwo : 2 ≤ (more ++ kept).length := by
        rw [List.length_append]
        omega
      by_contra hfits
      refine htight ⟨htwo, ?_, ?_⟩
      · rw [length_joined hne, total_append]
        omega
      · rw [length_joined hne, total_append]
        omega
    · omega

theorem within_iff (hfeasible : Feasible budget head rest) :
    ((shown head (rest.length - kept.length) kept).length : ℤ) ≤ budget ↔
      Roomy budget head rest := by
  by_cases hall : kept = rest
  · subst hall
    refine iff_of_true ?_ fun other hother hne => absurd (hother.unique hkept cost_nonneg) hne
    rw [Nat.sub_self]
    rcases hkept.fits with hone | hfits
    · have hlast : kept.getLast?.toList = kept := by
        cases kept with
        | nil => rfl
        | cons x xs =>
          rw [List.length_cons] at hone
          obtain rfl := List.length_eq_zero_iff.mp (by omega : xs.length = 0)
          rfl
      rw [Feasible, hlast] at hfeasible
      exact hfeasible
    · by_cases hnil : head ++ kept = []
      · obtain ⟨rfl, rfl⟩ := List.append_eq_nil_iff.mp hnil
        exact hfeasible
      · rw [length_shown hnil, total_append, if_pos rfl]
        omega
  · have hlen : rest.length - kept.length ≠ 0 := by
      have hle := hkept.suffix.length_le
      intro hzero
      exact hall (hkept.suffix.eq_of_length (by omega))
    have hne : head ++ kept ≠ [] := by
      have hrest : rest ≠ [] := by
        rintro rfl
        exact hall (List.suffix_nil.mp hkept.suffix)
      simp [hkept.nonempty hrest]
    rw [length_shown hne, if_neg hlen]
    constructor
    · intro hle other hother _
      obtain rfl := hother.unique hkept cost_nonneg
      omega
    · intro hroomy
      have hle := hroomy kept hkept hall
      omega

end

end AskFable.Conference

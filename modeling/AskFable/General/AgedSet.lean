import Mathlib.Algebra.Order.Group.Defs
import Mathlib.Algebra.Order.Sub.Basic
import Mathlib.Data.List.Basic

/-!
# A set that forgets by age

Names are claimed at readings of a clock, and a name claimed before is refused. Each claim
first forgets what is older than a given age, by its own reading. The readings need not
come in order, as they are taken before the claims are.
-/
namespace AskFable.AgedSet

variable {κ τ : Type*} [DecidableEq κ] [AddCommGroup τ] [LinearOrder τ] [IsOrderedAddMonoid τ]

/-- What is not older than `age` by the reading. -/
def recent (age now : τ) (seen : List (κ × τ)) : List (κ × τ) :=
  seen.filter fun e => !decide (e.2 < now - age)

/-- A claim of a name: what is remembered afterwards, and whether the name was new. -/
def claim (age now : τ) (k : κ) (seen : List (κ × τ)) : List (κ × τ) × Bool :=
  if k ∈ (recent age now seen).map Prod.fst then (recent age now seen, false)
  else (recent age now seen ++ [(k, now)], true)

omit [DecidableEq κ] in
theorem mem_recent {age now : τ} {seen : List (κ × τ)} {e : κ × τ} :
    e ∈ recent age now seen ↔ e ∈ seen ∧ now ≤ e.2 + age := by
  rw [recent, List.mem_filter, Bool.not_eq_true', decide_eq_false_iff_not, not_lt,
    sub_le_iff_le_add]

/-- A name remembered from a reading not too old is refused. -/
theorem claim_refused {age now c : τ} {k : κ} {seen : List (κ × τ)} (hmem : (k, c) ∈ seen)
    (hage : now ≤ c + age) : (claim age now k seen).2 = false := by
  have hrecent : k ∈ (recent age now seen).map Prod.fst :=
    List.mem_map.mpr ⟨(k, c), mem_recent.mpr ⟨hmem, hage⟩, rfl⟩
  rw [claim, if_pos hrecent]

/-- A claim keeps what is not too old. -/
theorem claim_keeps {age now : τ} {k : κ} {seen : List (κ × τ)} {e : κ × τ} (hmem : e ∈ seen)
    (hage : now ≤ e.2 + age) : e ∈ (claim age now k seen).1 := by
  have hrecent : e ∈ recent age now seen := mem_recent.mpr ⟨hmem, hage⟩
  unfold claim
  split_ifs
  · exact hrecent
  · exact List.mem_append_left _ hrecent

omit [IsOrderedAddMonoid τ] in
/-- A new name is remembered with its reading. -/
theorem claim_new {age now : τ} {k : κ} {seen : List (κ × τ)}
    (h : (claim age now k seen).2 = true) : (k, now) ∈ (claim age now k seen).1 := by
  unfold claim at h ⊢
  split_ifs at h ⊢
  exact List.mem_append_right _ (List.mem_singleton_self _)

end AskFable.AgedSet

import Mathlib.Data.List.MinMax
import Mathlib.Data.List.Nodup
import Mathlib.Data.List.Sort

/-!
# Trimming a table to its newest rows

Rows have a key and a timestamp. A trim counts the rows and, past a cap, deletes by key the
first ones in the order of their timestamps, so that a target below the cap remains. Rows of
one timestamp may stand in any order.
-/
namespace AskFable.Retention

variable {α κ β : Type*} [LinearOrder β]

/-- What retention promises of the rows it keeps. -/
structure KeepsNewest (ts : α → β) (cap : ℕ) (rows kept : List α) : Prop where
  only : kept.Sublist rows
  bounded : kept.length ≤ cap
  idle : rows.length ≤ cap → kept = rows
  older : ∀ a ∈ rows, a ∉ kept → ∀ b ∈ kept, ts a ≤ ts b
  newest : ∀ a ∈ rows, (∀ b ∈ rows, b ≠ a → ts b < ts a) → a ∈ kept
  latest : rows ≠ [] → ∃ a ∈ kept, ∀ b ∈ rows, ts b ≤ ts a

theorem exists_latest (ts : α → β) {rows : List α} (h : rows ≠ []) :
    ∃ a ∈ rows, ∀ b ∈ rows, ts b ≤ ts a := by
  have hsome : rows.argmax ts ≠ none := mt List.argmax_eq_none.mp h
  obtain ⟨a, ha⟩ := Option.ne_none_iff_exists'.mp hsome
  exact ⟨a, List.argmax_mem ha, fun b hb => List.le_of_mem_argmax hb ha⟩

theorem KeepsNewest.rfl {ts : α → β} {cap : ℕ} {rows : List α} (h : rows.length ≤ cap) :
    KeepsNewest ts cap rows rows where
  only := List.Sublist.refl _
  bounded := h
  idle _ := Eq.refl _
  older _ ha hnot := absurd ha hnot
  newest _ ha _ := ha
  latest := exists_latest ts

variable [DecidableEq κ] (key : α → κ)

/-- The rows that are not among the first `n` of an order. -/
def outside (order : List α) (n : ℕ) (rows : List α) : List α :=
  rows.filter fun r => key r ∉ (order.take n).map key

variable {key} {order rows : List α}

theorem outside_perm_drop (horder : order.Perm rows) (hkeys : (rows.map key).Nodup) (n : ℕ) :
    (outside key order n rows).Perm (order.drop n) := by
  have hnodup : (order.map key).Nodup := ((horder.map key).nodup_iff).mpr hkeys
  have hsplit : (order.take n).map key ++ (order.drop n).map key = order.map key := by
    rw [← List.map_append, List.take_append_drop]
  rw [← hsplit, List.nodup_append] at hnodup
  have hout : order.filter (fun r => key r ∉ (order.take n).map key) = order.drop n := by
    generalize hp : (fun r => decide (key r ∉ (order.take n).map key)) = p
    have htake : (order.take n).filter p = [] := by
      refine List.filter_eq_nil_iff.mpr fun r hr => ?_
      rw [← hp]
      simpa only [decide_eq_true_eq, not_not] using List.mem_map_of_mem hr
    have hdrop : (order.drop n).filter p = order.drop n := by
      refine List.filter_eq_self.mpr fun r hr => ?_
      rw [← hp]
      exact decide_eq_true fun hmem =>
        hnodup.2.2 _ hmem _ (List.mem_map_of_mem hr) (Eq.refl _)
    calc order.filter p = (order.take n ++ order.drop n).filter p := by
          rw [List.take_append_drop]
      _ = order.drop n := by rw [List.filter_append, htake, hdrop, List.nil_append]
  rw [← hout]
  exact horder.symm.filter _

variable {ts : α → β} {cap target : ℕ}

/-- Trimming to a target that leaves a row keeps the newest. -/
theorem keepsNewest_outside (horder : order.Perm rows)
    (hsorted : order.Pairwise fun a b => ts a ≤ ts b) (hkeys : (rows.map key).Nodup)
    (hcap : cap < rows.length) (htarget : target ≤ cap) (hpos : 0 < target) :
    KeepsNewest ts cap rows (outside key order (rows.length - target) rows) := by
  have hperm := outside_perm_drop horder hkeys (rows.length - target)
  have hlength := horder.length_eq
  rw [← List.take_append_drop (rows.length - target) order, List.pairwise_append] at hsorted
  obtain ⟨-, hdrop, hacross⟩ := hsorted
  have hmem (a : α) (ha : a ∈ rows) : a ∈ order.take (rows.length - target) ∨
      a ∈ outside key order (rows.length - target) rows := by
    have ha' := horder.mem_iff.mpr ha
    rw [← List.take_append_drop (rows.length - target) order, List.mem_append] at ha'
    exact ha'.imp_right hperm.mem_iff.mpr
  have hne : order.drop (rows.length - target) ≠ [] := by
    intro hnil
    have := congrArg List.length hnil
    rw [List.length_drop, List.length_nil] at this
    omega
  obtain ⟨last, hlast⟩ := List.exists_mem_of_ne_nil _ hne
  have hkept := hperm.mem_iff.mpr hlast
  refine ⟨List.filter_sublist, ?_, fun h => absurd hcap (Nat.not_lt.mpr h), ?_, ?_,
    fun hrows => ?_⟩
  · rw [hperm.length_eq, List.length_drop]
    omega
  · intro a ha hnot b hb
    exact hacross a ((hmem a ha).resolve_right hnot) b (hperm.mem_iff.mp hb)
  · intro a ha hnewest
    refine (hmem a ha).resolve_left fun htake => ?_
    have hle := hacross a htake last hlast
    by_cases hba : last = a
    · have hnodup : order.Nodup := .of_map key ((horder.map key).nodup_iff.mpr hkeys)
      rw [← List.take_append_drop (rows.length - target) order, List.nodup_append] at hnodup
      exact hnodup.2.2 a htake last hlast hba.symm
    · have hrow := horder.mem_iff.mp (List.mem_of_mem_drop hlast)
      exact absurd hle (not_le.mpr (hnewest last hrow hba))
  · obtain ⟨a, ha, hmax⟩ := exists_latest ts hrows
    rcases hmem a ha with htake | hin
    · exact ⟨last, hkept, fun b hb => (hmax b hb).trans (hacross a htake last hlast)⟩
    · exact ⟨a, hin, hmax⟩

/-- Trimming to nothing keeps no newest row. -/
theorem not_keepsNewest_outside (horder : order.Perm rows) (hkeys : (rows.map key).Nodup)
    (hcap : cap < rows.length) : ¬KeepsNewest ts cap rows (outside key order rows.length rows) := by
  intro h
  have hperm := outside_perm_drop horder hkeys rows.length
  rw [← horder.length_eq, List.drop_length] at hperm
  have hne : rows ≠ [] := by
    rintro rfl
    exact absurd hcap (Nat.not_lt_zero _)
  obtain ⟨a, ha, -⟩ := h.latest hne
  rw [← horder.length_eq, hperm.eq_nil] at ha
  exact absurd ha List.not_mem_nil

variable (key order) in
/-- A sweep down to a target. -/
def sweep (cap target : ℕ) (rows : List α) : List α :=
  if cap < rows.length then outside key order (rows.length - target) rows else rows

/-- A sweep to nine tenths of the cap, rounded down, keeps the newest rows, unless the cap is one
and there are more. -/
theorem keepsNewest_sweep_iff (horder : order.Perm rows)
    (hsorted : order.Pairwise fun a b => ts a ≤ ts b) (hkeys : (rows.map key).Nodup)
    (hcap : 1 ≤ cap) (htarget : target ≤ cap) (hpos : 0 < target ↔ 2 ≤ cap) :
    KeepsNewest ts cap rows (sweep key order cap target rows) ↔ 2 ≤ cap ∨ rows.length ≤ 1 := by
  unfold sweep
  by_cases hover : cap < rows.length
  · rw [if_pos hover]
    by_cases htwo : 2 ≤ cap
    · have hkeeps := keepsNewest_outside horder hsorted hkeys hover htarget (hpos.mpr htwo)
      exact ⟨fun _ => .inl htwo, fun _ => hkeeps⟩
    · obtain rfl : target = 0 := by omega
      exact ⟨fun h => absurd h (not_keepsNewest_outside horder hkeys hover), fun h => by omega⟩
  · rw [if_neg hover]
    exact ⟨fun _ => by omega, fun _ => .rfl (Nat.le_of_not_lt hover)⟩

/-- The same with the rows in the order a sort by the timestamp gives. -/
theorem keepsNewest_insertionSort_iff (hkeys : (rows.map key).Nodup) (hcap : 1 ≤ cap)
    (htarget : target ≤ cap) (hpos : 0 < target ↔ 2 ≤ cap) :
    KeepsNewest ts cap rows
        (sweep key (rows.insertionSort fun a b => ts a ≤ ts b) cap target rows) ↔
      2 ≤ cap ∨ rows.length ≤ 1 := by
  have : Std.Total fun a b => ts a ≤ ts b := ⟨fun a b => le_total (ts a) (ts b)⟩
  have : IsTrans α fun a b => ts a ≤ ts b := ⟨fun _ _ _ => le_trans⟩
  exact keepsNewest_sweep_iff (List.perm_insertionSort _ rows) (List.pairwise_insertionSort _ rows)
    hkeys hcap htarget hpos

end AskFable.Retention

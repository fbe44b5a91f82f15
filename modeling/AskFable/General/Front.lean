import Mathlib.Data.List.Count
import Mathlib.Data.List.Nodup
import Mathlib.Data.List.Perm.Basic
import Mathlib.Data.List.Dedup

/-!
# Some elements put first

A list is reordered by putting picked elements first and then those that were not picked. This
loses none, and it is a permutation exactly when each picked element is picked as often as the
list has it.
-/
namespace AskFable.Front

variable {α : Type*} [DecidableEq α] {l picked : List α} {a : α}

/-- The picked elements, then the others. -/
def front (l picked : List α) : List α := picked ++ l.filter fun a => a ∉ picked

theorem mem_front (h : picked ⊆ l) : a ∈ front l picked ↔ a ∈ l := by
  rw [front, List.mem_append, List.mem_filter]
  constructor
  · rintro (hp | ⟨hl, -⟩)
    · exact h hp
    · exact hl
  · intro hl
    by_cases hp : a ∈ picked
    · exact .inl hp
    · exact .inr ⟨hl, by simpa using hp⟩

theorem count_front (a : α) :
    (front l picked).count a = if a ∈ picked then picked.count a else l.count a := by
  rw [front, List.count_append]
  split_ifs with hp
  · have hzero : (l.filter fun a => a ∉ picked).count a = 0 :=
      List.count_eq_zero.mpr fun hmem => by simpa [hp] using (List.mem_filter.mp hmem).2
    rw [hzero, Nat.add_zero]
  · rw [List.count_eq_zero.mpr hp, List.count_filter (by simpa using hp), Nat.zero_add]

theorem front_perm_iff :
    (front l picked).Perm l ↔ ∀ a ∈ picked, picked.count a = l.count a := by
  rw [List.perm_iff_count]
  constructor
  · intro h a ha
    have hcount := h a
    rwa [count_front, if_pos ha] at hcount
  · intro h a
    rw [count_front]
    split_ifs with ha
    · exact h a ha
    · rfl

/-- The elements at some places, those in range. -/
def pick (l : List α) (is : List ℕ) : List α := is.filterMap (l[·]?)

omit [DecidableEq α] in
theorem pick_subset (is : List ℕ) : pick l is ⊆ l := fun a ha => by
  obtain ⟨i, -, hi⟩ := List.mem_filterMap.mp ha
  exact List.mem_of_getElem? hi

omit [DecidableEq α] in
theorem pick_cons {i : ℕ} {is : List ℕ} (hi : i < l.length) :
    pick l (i :: is) = l[i] :: pick l is := by
  simp [pick, List.getElem?_eq_getElem hi]

omit [DecidableEq α] in
theorem getElem_mem_pick (hl : l.Nodup) {i : ℕ} {is : List ℕ} (hi : i < l.length) :
    l[i] ∈ pick l is ↔ i ∈ is := by
  constructor
  · intro h
    obtain ⟨j, hj, hget⟩ := List.mem_filterMap.mp h
    obtain ⟨hjl, hget⟩ := List.getElem?_eq_some_iff.mp hget
    rwa [hl.getElem_inj_iff.mp hget] at hj
  · exact fun h => List.mem_filterMap.mpr ⟨i, h, List.getElem?_eq_getElem hi⟩

omit [DecidableEq α] in
theorem nodup_pick_iff (hl : l.Nodup) {is : List ℕ} (his : ∀ i ∈ is, i < l.length) :
    (pick l is).Nodup ↔ is.Nodup := by
  induction is with
  | nil => simp [pick]
  | cons i is ih =>
    obtain ⟨hi, his⟩ := List.forall_mem_cons.mp his
    rw [pick_cons hi, List.nodup_cons, List.nodup_cons, getElem_mem_pick hl hi, ih his]

/-- As many are picked as places named, and as many different ones. -/
theorem length_pick (hl : l.Nodup) {is : List ℕ} (his : ∀ i ∈ is, i < l.length) :
    (pick l is).length = is.length ∧ (pick l is).dedup.length = is.dedup.length := by
  induction is with
  | nil => exact ⟨rfl, rfl⟩
  | cons i is ih =>
    obtain ⟨hi, his⟩ := List.forall_mem_cons.mp his
    obtain ⟨hlength, hdedup⟩ := ih his
    have hmem : l[i] ∈ pick l is ↔ i ∈ is := getElem_mem_pick hl hi
    rw [pick_cons hi, List.length_cons, List.length_cons, hlength]
    refine ⟨rfl, ?_⟩
    by_cases h : i ∈ is
    · rw [List.dedup_cons_of_mem (hmem.mpr h), List.dedup_cons_of_mem h, hdedup]
    · rw [List.dedup_cons_of_notMem (mt hmem.mp h), List.dedup_cons_of_notMem h, List.length_cons,
        List.length_cons, hdedup]

/-- With distinct elements, putting picked ones first is a permutation exactly when none is
picked twice. -/
theorem front_pick_perm_iff (hl : l.Nodup) {is : List ℕ} (his : ∀ i ∈ is, i < l.length) :
    (front l (pick l is)).Perm l ↔ is.Nodup := by
  rw [← nodup_pick_iff hl his, front_perm_iff, List.nodup_iff_count_le_one]
  constructor
  · intro h a
    by_cases ha : a ∈ pick l is
    · rw [h a ha]
      exact List.nodup_iff_count_le_one.mp hl a
    · rw [List.count_eq_zero.mpr ha]
      exact Nat.zero_le _
  · intro h a ha
    rw [List.count_eq_one_of_mem hl (pick_subset is ha)]
    exact Nat.le_antisymm (h a) (List.count_pos_iff.mpr ha)

/-- What is picked again comes on top. -/
theorem length_front_pick (hl : l.Nodup) {is : List ℕ} (his : ∀ i ∈ is, i < l.length) :
    (front l (pick l is)).length = l.length + (is.length - is.dedup.length) := by
  obtain ⟨hlength, hdedup⟩ := length_pick hl his
  have hpicked : (l.filter fun a => a ∈ pick l is).Perm (pick l is).dedup := by
    refine (List.perm_ext_iff_of_nodup (hl.filter _) (List.nodup_dedup _)).mpr fun a => ?_
    rw [List.mem_filter, List.mem_dedup, decide_eq_true_eq]
    exact and_iff_right_of_imp fun ha => pick_subset is ha
  have hsplit := List.length_eq_length_filter_add (l := l) fun a => decide (a ∈ pick l is)
  rw [hpicked.length_eq, hdedup] at hsplit
  have hle := (List.dedup_sublist is).length_le
  have hrest : (l.filter fun a => a ∉ pick l is) = l.filter fun a => !decide (a ∈ pick l is) :=
    List.filter_congr fun a _ => by simp
  rw [front, List.length_append, hlength, hrest]
  omega

end AskFable.Front

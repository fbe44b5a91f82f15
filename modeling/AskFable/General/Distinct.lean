import Mathlib.Data.List.Nodup

/-!
# The first element of each key

A list without the elements whose key has come before, and a list sorted into classes that
exclude one another.
-/
namespace AskFable.Distinct

variable {α κ μ : Type*} [DecidableEq κ] (key : α → κ)

/-- The elements whose key was not seen before. -/
def firsts : List κ → List α → List α
  | _, [] => []
  | seen, a :: l => if key a ∈ seen then firsts seen l else a :: firsts (key a :: seen) l

variable {key} {seen : List κ} {l : List α}

theorem firsts_cons (a : α) (l : List α) : firsts key seen (a :: l) =
    if key a ∈ seen then firsts key seen l else a :: firsts key (key a :: seen) l :=
  rfl

theorem firsts_congr {seen' : List κ} (h : ∀ k, k ∈ seen ↔ k ∈ seen') :
    firsts key seen l = firsts key seen' l := by
  induction l generalizing seen seen' with
  | nil => rfl
  | cons a l ih =>
    have hcons : ∀ k, k ∈ key a :: seen ↔ k ∈ key a :: seen' := fun k => by simp [h k]
    simp only [firsts_cons, h (key a), ih h, ih hcons]

theorem firsts_sublist (seen : List κ) (l : List α) : (firsts key seen l).Sublist l := by
  induction l generalizing seen with
  | nil => exact List.Sublist.refl _
  | cons a l ih =>
    rw [firsts_cons]
    split_ifs
    · exact (ih seen).cons a
    · exact (ih _).cons_cons a

theorem notMem_of_firsts {a : α} (h : a ∈ firsts key seen l) : key a ∉ seen := by
  induction l generalizing seen with
  | nil => cases h
  | cons b l ih =>
    rw [firsts_cons] at h
    split_ifs at h with hb
    · exact ih h
    · rcases List.mem_cons.mp h with rfl | h
      · exact hb
      · exact fun hmem => ih h (List.mem_cons_of_mem _ hmem)

variable (key) in
theorem nodup_firsts (seen : List κ) (l : List α) : ((firsts key seen l).map key).Nodup := by
  induction l generalizing seen with
  | nil => exact List.nodup_nil
  | cons a l ih =>
    rw [firsts_cons]
    split_ifs
    · exact ih seen
    · rw [List.map_cons, List.nodup_cons]
      refine ⟨?_, ih _⟩
      intro hmem
      obtain ⟨b, hb, hkey⟩ := List.mem_map.mp hmem
      exact notMem_of_firsts hb (hkey ▸ List.mem_cons_self)

variable (key seen) in
/-- Every element has a first one of its key. -/
theorem exists_first {a : α} (h : a ∈ l) :
    key a ∈ seen ∨ ∃ b ∈ firsts key seen l, key b = key a := by
  induction l generalizing seen with
  | nil => cases h
  | cons b l ih =>
    rw [firsts_cons]
    split_ifs with hb
    · rcases List.mem_cons.mp h with rfl | h
      · exact .inl hb
      · exact ih seen h
    · rcases List.mem_cons.mp h with rfl | h
      · exact .inr ⟨a, List.mem_cons_self, rfl⟩
      · rcases ih (key b :: seen) h with hmem | ⟨c, hc, hkey⟩
        · rcases List.mem_cons.mp hmem with heq | hmem
          · exact .inr ⟨b, List.mem_cons_self, heq.symm⟩
          · exact .inl hmem
        · exact .inr ⟨c, List.mem_cons_of_mem _ hc, hkey⟩

theorem firsts_eq_self (hnodup : (l.map key).Nodup) (h : ∀ a ∈ l, key a ∉ seen) :
    firsts key seen l = l := by
  induction l generalizing seen with
  | nil => rfl
  | cons a l ih =>
    rw [List.map_cons, List.nodup_cons] at hnodup
    rw [firsts_cons, if_neg (h a List.mem_cons_self), ih hnodup.2]
    intro b hb
    rw [List.mem_cons, not_or]
    refine ⟨fun heq => hnodup.1 (heq ▸ List.mem_map_of_mem hb), h b (List.mem_cons_of_mem _ hb)⟩

/-! ### Classes -/

/-- A list class by class. -/
def sorted (classes : List μ) (p : μ → α → Bool) (l : List α) : List α :=
  classes.flatMap fun m => l.filter (p m)

variable {classes : List μ} {p : μ → α → Bool}

theorem mem_sorted {a : α} : a ∈ sorted classes p l ↔ a ∈ l ∧ ∃ m ∈ classes, p m a = true := by
  simp only [sorted, List.mem_flatMap, List.mem_filter]
  constructor
  · rintro ⟨m, hm, ha, hp⟩
    exact ⟨ha, m, hm, hp⟩
  · rintro ⟨ha, m, hm, hp⟩
    exact ⟨m, hm, ha, hp⟩

/-- No element is in two classes. -/
def Exclusive (classes : List μ) (p : μ → α → Bool) : Prop :=
  ∀ m ∈ classes, ∀ m' ∈ classes, ∀ a, p m a = true → p m' a = true → m = m'

theorem Exclusive.tail {m : μ} (h : Exclusive (m :: classes) p) : Exclusive classes p :=
  fun a ha b hb => h a (List.mem_cons_of_mem _ ha) b (List.mem_cons_of_mem _ hb)

omit [DecidableEq κ] in
theorem nodup_sorted (h : Exclusive classes p) (hclasses : classes.Nodup)
    (hl : (l.map key).Nodup) : ((sorted classes p l).map key).Nodup := by
  induction classes with
  | nil => exact List.nodup_nil
  | cons m classes ih =>
    rw [List.nodup_cons] at hclasses
    rw [sorted, List.flatMap_cons, List.map_append, List.nodup_append']
    refine ⟨hl.sublist (List.filter_sublist.map key), ih h.tail hclasses.2, ?_⟩
    intro k hk hk'
    obtain ⟨a, ha, rfl⟩ := List.mem_map.mp hk
    obtain ⟨b, hb, hkey⟩ := List.mem_map.mp hk'
    obtain ⟨hal, hpa⟩ := List.mem_filter.mp ha
    obtain ⟨hbl, m', hm', hpb⟩ := mem_sorted.mp hb
    obtain rfl := List.inj_on_of_nodup_map hl hal hbl hkey.symm
    have hm := h m List.mem_cons_self m' (List.mem_cons_of_mem _ hm') a hpa hpb
    exact hclasses.1 (hm ▸ hm')

/-- A class of a sorted list is the class of the list. -/
theorem filter_sorted (h : Exclusive classes p) (hclasses : classes.Nodup) {m : μ}
    (hm : m ∈ classes) (l : List α) : (sorted classes p l).filter (p m) = l.filter (p m) := by
  induction classes with
  | nil => cases hm
  | cons c classes ih =>
    rw [List.nodup_cons] at hclasses
    rw [sorted, List.flatMap_cons, List.filter_append, List.filter_filter]
    by_cases hc : m = c
    · have hrest : (classes.flatMap fun m => l.filter (p m)).filter (p m) = [] := by
        rw [List.filter_eq_nil_iff]
        intro a ha hp
        obtain ⟨-, m', hm', hp'⟩ := mem_sorted.mp ha
        have heq := h m hm m' (List.mem_cons_of_mem _ hm') a hp hp'
        exact hclasses.1 (hc ▸ heq ▸ hm')
      rw [hrest, List.append_nil, hc]
      simp
    · have hmem : m ∈ classes := (List.mem_cons.mp hm).resolve_left hc
      have hhead : (l.filter fun a => p m a && p c a) = [] := by
        rw [List.filter_eq_nil_iff]
        intro a _ hp
        rw [Bool.and_eq_true] at hp
        exact hc (h m hm c List.mem_cons_self a hp.1 hp.2)
      rw [hhead, List.nil_append]
      exact ih h.tail hclasses.2 hmem

theorem sorted_sorted (h : Exclusive classes p) (hclasses : classes.Nodup) (l : List α) :
    sorted classes p (sorted classes p l) = sorted classes p l := by
  conv_rhs => rw [sorted]
  conv_lhs => rw [sorted]
  exact List.flatMap_congr fun m hm => filter_sorted h hclasses hm l

end AskFable.Distinct

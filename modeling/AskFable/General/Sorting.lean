import Mathlib.Data.List.Perm.Basic
import Mathlib.Data.List.Sort
import Mathlib.Data.Set.List

/-!
# Sorted lists read element by element

Where two elements stand in a sorted list, what sorting does to a part of a list, and what is
read off a list when only some elements contribute.
-/
namespace AskFable.Sorting

variable {α β : Type*} {a b : α} {l : List α}

/-- In a sorted list the smaller of two elements stands first. -/
theorem pair_sublist {r : α → α → Prop} (hsorted : l.Pairwise r) (ha : a ∈ l) (hb : b ∈ l)
    (hne : a ≠ b) (hba : ¬r b a) : [a, b].Sublist l := by
  induction l with
  | nil => simp at ha
  | cons c l ih =>
    rw [List.pairwise_cons] at hsorted
    rw [List.mem_cons] at ha hb
    rcases ha with rfl | ha
    · exact (List.singleton_sublist.mpr (hb.resolve_left (Ne.symm hne))).cons_cons a
    · rcases hb with rfl | hb
      · exact absurd (hsorted.1 a ha) hba
      · exact (ih hsorted.2 ha hb).cons c

theorem filter_insertionSort [LinearOrder α] (p : α → Bool) (l : List α) :
    (l.insertionSort (· ≤ ·)).filter p = (l.filter p).insertionSort (· ≤ ·) :=
  List.Perm.eq_of_pairwise' ((List.pairwise_insertionSort _ l).filter p)
    (List.pairwise_insertionSort _ _)
    (((List.perm_insertionSort _ l).filter p).trans (List.perm_insertionSort _ _).symm)

/-- Elements that contribute nothing may be left out. -/
theorem flatMap_kept {f : α → List β} (p : α → Bool) (l : List α) (h : ∀ a, p a = false → f a = []) :
    l.flatMap f = (l.filter p).flatMap f := by
  induction l with
  | nil => rfl
  | cons a l ih =>
    by_cases hp : p a = true
    · rw [List.filter_cons_of_pos hp, List.flatMap_cons, List.flatMap_cons, ih]
    · rw [List.filter_cons_of_neg hp, List.flatMap_cons, h a (by simpa using hp), ih, List.nil_append]

/-- A list whose keys ascend is what sorting by the key makes of any list of its elements. -/
theorem insertionSort_eq_of_perm (key : α → ℕ) {l l' : List α} (h : l.Perm l')
    (hl' : (l'.map key).Pairwise (· < ·)) : l.insertionSort (key · ≤ key ·) = l' := by
  have : Std.Total fun a b => key a ≤ key b := ⟨fun a b => le_total (key a) (key b)⟩
  have : IsTrans α fun a b => key a ≤ key b := ⟨fun _ _ _ => le_trans⟩
  have hascend := List.pairwise_map.mp hl'
  have hdistinct : (l'.map key).Nodup := hl'.imp (fun h => Nat.ne_of_lt h)
  refine List.Perm.eq_of_pairwise (fun a b ha hb hab hba => ?_) (List.pairwise_insertionSort _ l)
    (hascend.imp fun hab => Nat.le_of_lt hab) ((List.perm_insertionSort _ l).trans h)
  have ha' : a ∈ l' := h.mem_iff.mp ((List.mem_insertionSort _).mp ha)
  exact List.inj_on_of_nodup_map hdistinct ha' hb (Nat.le_antisymm hab hba)

/-- Sorting by a key that tells the elements apart forgets the order they came in. -/
theorem insertionSort_congr {κ : Type*} [LinearOrder κ] (key : α → κ) {l l' : List α}
    (h : l.Perm l') (hinj : ∀ a ∈ l, ∀ b ∈ l, key a = key b → a = b) :
    l.insertionSort (key · ≤ key ·) = l'.insertionSort (key · ≤ key ·) := by
  have : Std.Total fun a b => key a ≤ key b := ⟨fun a b => le_total (key a) (key b)⟩
  have : IsTrans α fun a b => key a ≤ key b := ⟨fun _ _ _ => le_trans⟩
  refine List.Perm.eq_of_pairwise (fun a b ha hb hab hba => ?_) (List.pairwise_insertionSort _ l)
    (List.pairwise_insertionSort _ l')
    ((List.perm_insertionSort _ l).trans (h.trans (List.perm_insertionSort _ l').symm))
  have ha' : a ∈ l := (List.mem_insertionSort _).mp ha
  have hb' : b ∈ l := h.mem_iff.mpr ((List.mem_insertionSort _).mp hb)
  exact hinj a ha' b hb' (le_antisymm hab hba)

/-- A traversal that may fail, read from its end. -/
theorem mapM_eq_some {γ : Type*} {f : α → Option γ} {l : List α} {r : List γ} :
    l.mapM f = some r ↔ l.map f = r.map some := by
  induction l generalizing r with
  | nil => cases r <;> simp
  | cons a l ih =>
    rw [List.mapM_cons, List.map_cons]
    cases f a with
    | none => cases r <;> simp
    | some c => cases r <;> simp [← ih, Option.bind_eq_some_iff, and_comm]

/-- It ends the same on two lists that it reads the same from. -/
theorem mapM_perm {γ : Type*} {f : α → Option γ} {f' : β → Option γ} {l : List α} {l' : List β}
    (h : (l.map f).Perm (l'.map f')) {r : List γ} (hr : l.mapM f = some r) :
    ∃ r', l'.mapM f' = some r' ∧ r.Perm r' := by
  rw [mapM_eq_some.mp hr] at h
  obtain ⟨r', hr'⟩ : l'.map f' ∈ Set.range (List.map (some : γ → Option γ)) := by
    rw [Set.range_list_map]
    intro x hx
    obtain ⟨c, -, rfl⟩ := List.mem_map.mp (h.mem_iff.mpr hx)
    exact ⟨c, rfl⟩
  refine ⟨r', mapM_eq_some.mpr hr'.symm, ?_⟩
  rw [← hr'] at h
  exact (List.map_perm_map_iff (Option.some_injective γ)).mp h

/-- What is read off a list in two passes, no element giving to both, is read off in one. -/
theorem filterMap_append_perm {f g : α → Option β} (h : ∀ a, f a = none ∨ g a = none)
    (l : List α) : (l.filterMap f ++ l.filterMap g).Perm (l.filterMap fun a => (f a).or (g a)) := by
  induction l with
  | nil => exact List.Perm.refl _
  | cons a l ih =>
    obtain ha | ha := h a
    · cases hg : g a with
      | none => simpa [ha, hg] using ih
      | some b => simpa [ha, hg] using List.perm_middle.trans (ih.cons b)
    · cases hf : f a with
      | none => simpa [ha, hf] using ih
      | some b => simpa [ha, hf] using ih.cons b

variable [DecidableEq α]

theorem filter_pair (hl : l.Nodup) (h : [a, b].Sublist l) :
    (l.filter fun c => c = a ∨ c = b) = [a, b] := by
  have hsub : [a, b].Sublist (l.filter fun c => c = a ∨ c = b) := by
    simpa using h.filter fun c => c = a ∨ c = b
  have hpair : (l.filter fun c => c = a ∨ c = b) ⊆ [a, b] := by
    intro c hc
    simpa using (List.mem_filter.mp hc).2
  exact (hsub.eq_of_length_le (List.subperm_of_subset (hl.filter _) hpair).length_le).symm

theorem flatMap_pair {f : α → List β} (hl : l.Nodup) (h : [a, b].Sublist l)
    (hf : ∀ c, c ≠ a → c ≠ b → f c = []) : l.flatMap f = f a ++ f b := by
  rw [flatMap_kept (fun c => c = a ∨ c = b) l fun c hc => by
    simp only [decide_eq_false_iff_not, not_or] at hc
    exact hf c hc.1 hc.2, filter_pair hl h]
  simp

end AskFable.Sorting

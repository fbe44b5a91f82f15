import Mathlib.Algebra.BigOperators.Group.List.Basic
import Mathlib.Algebra.Order.Group.Int.Sum
import Mathlib.Data.List.Infix
import Mathlib.Tactic.Linarith

/-!
# The newest elements within a budget

Elements are taken from the end of a list while their sizes fit a budget, and the last one
in any case. What is taken is the longest tail of the list that fits, or its last element.
-/
namespace AskFable.Tail

variable {α : Type*} (size : α → ℤ) (room : ℤ)

def total (l : List α) : ℤ := (l.map size).sum

/-- Take from a list with the newest element first, in front of those already taken. -/
def take : ℤ → List α → List α → List α
  | _, taken, [] => taken
  | spent, taken, a :: older =>
    if room < spent + size a ∧ taken ≠ [] then taken
    else take (spent + size a) (a :: taken) older

/-- A tail that fits, or is at most one element, and of which no longer one fits. -/
structure Longest (l t : List α) : Prop where
  suffix : t <:+ l
  nonempty : l ≠ [] → t ≠ []
  fits : t.length ≤ 1 ∨ total size t ≤ room
  full : ∀ a, a :: t <:+ l → room < total size (a :: t)

variable {size room}

@[simp] theorem total_cons (a : α) (l : List α) : total size (a :: l) = size a + total size l := by
  simp [total]

@[simp] theorem total_append (l t : List α) : total size (l ++ t) = total size l + total size t := by
  simp [total]

theorem take_longest {spent : ℤ} {taken older : List α} (hspent : spent = total size taken)
    (hfits : taken.length ≤ 1 ∨ total size taken ≤ room) :
    Longest size room (older.reverse ++ taken) (take size room spent taken older) := by
  induction older generalizing spent taken with
  | nil =>
    refine ⟨List.suffix_rfl, fun h => h, hfits, fun a ha => ?_⟩
    have hle := ha.length_le
    simp [take] at hle
  | cons a older ih =>
    rw [take, List.reverse_cons, List.append_assoc, List.singleton_append]
    split_ifs with hstop
    · refine ⟨?_, fun _ => hstop.2, hfits, fun b hb => ?_⟩
      · exact (List.suffix_cons a taken).trans (List.suffix_append _ _)
      · have hnext : a :: taken <:+ older.reverse ++ a :: taken := List.suffix_append _ _
        have hlen : (b :: taken).length ≤ (a :: taken).length := by simp
        obtain rfl : b = a := by
          have hsame := (List.suffix_of_suffix_length_le hb hnext hlen).eq_of_length (by simp)
          exact (List.cons.inj hsame).1
        rw [total_cons]
        linarith [hstop.1]
    · refine ih (by rw [total_cons, hspent, add_comm]) ?_
      by_cases htaken : taken = []
      · exact .inl (by simp [htaken])
      · right
        rw [total_cons]
        have hroom : ¬room < spent + size a := fun h => hstop ⟨h, htaken⟩
        linarith

theorem take_newest (l : List α) : Longest size room l (take size room 0 [] l.reverse) := by
  have h : Longest size room (l.reverse.reverse ++ []) (take size room 0 [] l.reverse) :=
    take_longest rfl (.inl (Nat.zero_le 1))
  rwa [List.append_nil, List.reverse_reverse] at h

theorem total_nonneg (hsize : ∀ a, 0 ≤ size a) (l : List α) : 0 ≤ total size l := by
  induction l with
  | nil => rfl
  | cons a l ih =>
    rw [total_cons]
    linarith [hsize a]

/-- The part of a tail before another. -/
theorem total_le_of_suffix (hsize : ∀ a, 0 ≤ size a) {t u : List α} (h : t <:+ u) :
    total size t ≤ total size u := by
  obtain ⟨w, rfl⟩ := h
  rw [total_append]
  linarith [total_nonneg hsize w]

/-- No longer tail fits either. -/
theorem Longest.lt_total {l t u : List α} (h : Longest size room l t) (hsize : ∀ a, 0 ≤ size a)
    (hu : u ≠ []) (hul : u ++ t <:+ l) : room < total size (u ++ t) := by
  have hsplit := List.dropLast_append_getLast hu
  have hlast : u.getLast hu :: t <:+ u ++ t := by
    refine ⟨u.dropLast, ?_⟩
    rw [← List.singleton_append, ← List.append_assoc, hsplit]
  exact (h.full _ (hlast.trans hul)).trans_le (total_le_of_suffix hsize hlast)

theorem Longest.le_of_suffix {l t u : List α} (ht : Longest size room l t)
    (hu : Longest size room l u) (hsize : ∀ a, 0 ≤ size a) (h : t <:+ u) : t = u := by
  obtain ⟨w, rfl⟩ := h
  by_cases hw : w = []
  · rw [hw, List.nil_append]
  · exfalso
    have hover := ht.lt_total hsize hw hu.suffix
    rcases hu.fits with hone | hfits
    · have hl : l ≠ [] := by
        rintro rfl
        have hnil := List.suffix_nil.mp hu.suffix
        exact hw (List.append_eq_nil_iff.mp hnil).1
      have htpos := List.length_pos_iff.mpr (ht.nonempty hl)
      have hwpos := List.length_pos_iff.mpr hw
      rw [List.length_append] at hone
      omega
    · linarith

theorem Longest.unique {l t u : List α} (ht : Longest size room l t) (hu : Longest size room l u)
    (hsize : ∀ a, 0 ≤ size a) : t = u := by
  rcases List.suffix_or_suffix_of_suffix ht.suffix hu.suffix with h | h
  · exact ht.le_of_suffix hu hsize h
  · exact (hu.le_of_suffix ht hsize h).symm

end AskFable.Tail

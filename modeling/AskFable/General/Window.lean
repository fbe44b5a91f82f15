import Mathlib.Data.List.TakeDrop
import Mathlib.Tactic.Linarith

/-!
# A sliding window

A list that takes new elements at its end and drops old ones at its front so that it never
holds more than its width.
-/
namespace AskFable.Window

variable {α : Type*}

/-- Drop from the front until one more element fits. -/
def evict (width : ℕ) : List α → List α
  | [] => []
  | a :: l => if width ≤ (a :: l).length then evict width l else a :: l

def push (width : ℕ) (l : List α) (a : α) : List α := evict width l ++ [a]

/-- The last elements of a list. -/
def latest (width : ℕ) (l : List α) : List α := l.drop (l.length - width)

theorem evict_eq (width : ℕ) (l : List α) : evict width l = l.drop (l.length + 1 - width) := by
  induction l with
  | nil => simp [evict]
  | cons a l ih =>
    rw [evict]
    split_ifs with h
    · have hshift : (a :: l).length + 1 - width = (l.length + 1 - width) + 1 := by
        rw [List.length_cons] at h ⊢
        omega
      rw [hshift, List.drop_succ_cons, ih]
    · have hzero : (a :: l).length + 1 - width = 0 := by omega
      rw [hzero, List.drop_zero]

/-- A window that has taken elements holds the latest of them. -/
theorem push_latest {width : ℕ} (hwidth : 1 ≤ width) (l : List α) (a : α) :
    push width (latest width l) a = latest width (l ++ [a]) := by
  have hlen : (l ++ [a]).length - width ≤ l.length := by
    rw [List.length_append, List.length_singleton]
    omega
  rw [push, evict_eq, latest, latest, List.drop_drop, List.drop_append_of_le_length hlen,
    List.length_drop, List.length_append, List.length_singleton]
  congr 2
  omega

theorem length_latest (width : ℕ) (l : List α) : (latest width l).length = min width l.length := by
  rw [latest, List.length_drop]
  omega

theorem latest_of_le {width : ℕ} {l : List α} (h : l.length ≤ width) : latest width l = l := by
  rw [latest, Nat.sub_eq_zero_of_le h, List.drop_zero]

theorem length_push_le {width : ℕ} (hwidth : 1 ≤ width) {l : List α} (h : l.length ≤ width)
    (a : α) : (push width l a).length ≤ width := by
  rw [← latest_of_le h, push_latest hwidth, length_latest]
  exact Nat.min_le_left _ _

theorem push_of_lt {width : ℕ} {l : List α} (h : l.length < width) (a : α) :
    push width l a = l ++ [a] := by
  rw [push, evict_eq, Nat.sub_eq_zero_of_le h, List.drop_zero]

theorem push_full (b : α) (l : List α) (a : α) : push (l.length + 1) (b :: l) a = l ++ [a] := by
  have hone : (b :: l).length + 1 - (l.length + 1) = 1 := by simp
  rw [push, evict_eq, hone, List.drop_one, List.tail_cons]

/-- Taking an element never lowers its share: the one dropped may be another of them, but it is
replaced. -/
theorem share_le_push [DecidableEq α] {width : ℕ} {l : List α} (h : l.length ≤ width) (a : α) :
    l.count a * (push width l a).length ≤ (push width l a).count a * l.length := by
  rcases h.lt_or_eq with hlt | heq
  · have hcount : l.count a ≤ l.length := List.count_le_length
    rw [push_of_lt hlt, List.length_append, List.count_append, List.count_singleton_self,
      List.length_singleton]
    nlinarith
  · cases l with
    | nil => simp
    | cons b l =>
      rw [← heq, List.length_cons, push_full, List.length_append, List.count_append,
        List.count_singleton_self, List.length_singleton]
      have hdrop : (b :: l).count a ≤ l.count a + 1 := by
        rw [List.count_cons]
        split_ifs <;> omega
      exact Nat.mul_le_mul_right _ hdrop

/-- Taking one element often enough fills the window with it. -/
theorem foldl_push_replicate {width m : ℕ} (hwidth : 1 ≤ width) (hm : width ≤ m) {l : List α}
    (hl : l.length ≤ width) (a : α) :
    (List.replicate m a).foldl (push width) l = List.replicate width a := by
  have hfold (k : ℕ) : (List.replicate k a).foldl (push width) l =
      latest width (l ++ List.replicate k a) := by
    induction k with
    | zero => simp [latest_of_le hl]
    | succ k ih =>
      rw [List.replicate_succ', List.foldl_append, ih, List.foldl_cons, List.foldl_nil,
        push_latest hwidth, List.append_assoc]
  have hskip : (l ++ List.replicate m a).length - width = l.length + (m - width) := by
    rw [List.length_append, List.length_replicate]
    omega
  have hleft : m - (m - width) = width := by omega
  rw [hfold, latest, hskip, List.drop_length_add_append, List.drop_replicate, hleft]

end AskFable.Window

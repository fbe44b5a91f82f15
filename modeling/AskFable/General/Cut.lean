import Mathlib.Data.List.Infix

/-!
# Behind the first separator

What a list leaves behind the first occurrence of a separator. Behind a known head it is what
was written there exactly when the separator does not begin inside the head.
-/
namespace AskFable.Cut

variable {α : Type*} [DecidableEq α]

/-- What stands behind the first occurrence of a separator. -/
def afterFirst (sep : List α) : List α → Option (List α)
  | [] => if sep = [] then some [] else none
  | c :: l =>
    if sep.isPrefixOf (c :: l) then some ((c :: l).drop sep.length) else afterFirst sep l

variable {sep : List α}

omit [DecidableEq α] in
/-- A separator that begins inside the head ends before its own last letter. -/
theorem prefix_head_iff (c : α) (a b : List α) (hsep : sep ≠ []) :
    sep <+: c :: (a ++ (sep ++ b)) ↔ sep <+: c :: (a ++ sep.dropLast) := by
  have hwhole : c :: (a ++ sep.dropLast) <+: c :: (a ++ (sep ++ b)) := by
    rw [List.prefix_cons_inj, List.prefix_append_right_inj]
    exact sep.dropLast_prefix.trans (List.prefix_append sep b)
  constructor
  · intro h
    refine List.prefix_of_prefix_length_le h hwhole ?_
    have hpos := List.length_pos_iff.mpr hsep
    rw [List.length_cons, List.length_append, List.length_dropLast]
    omega
  · exact fun h => h.trans hwhole

/-- Where the separator is written it is found, at the latest there; earlier exactly when it
begins in the head. -/
theorem afterFirst_append (a b : List α) (hsep : sep ≠ []) :
    ∃ r, afterFirst sep (a ++ (sep ++ b)) = some (r ++ b) ∧
      (r = [] ↔ ¬ sep <:+: a ++ sep.dropLast) := by
  induction a with
  | nil =>
    refine ⟨[], ?_, iff_of_true rfl fun h => ?_⟩
    · obtain ⟨c, t, rfl⟩ := List.exists_cons_of_ne_nil hsep
      have hpre : (c :: t).isPrefixOf (c :: (t ++ b)) = true :=
        List.isPrefixOf_iff_prefix.mpr (List.prefix_append (c :: t) b)
      rw [List.nil_append, List.cons_append, afterFirst, if_pos hpre, ← List.cons_append,
        List.drop_left, List.nil_append]
    · have hlen := h.length_le
      have hpos := List.length_pos_iff.mpr hsep
      rw [List.nil_append, List.length_dropLast] at hlen
      omega
  | cons c a ih =>
    obtain ⟨r, hr, hiff⟩ := ih
    rw [List.cons_append, List.cons_append, afterFirst, List.infix_cons_iff,
      ← prefix_head_iff c a b hsep, ← List.isPrefixOf_iff_prefix]
    split_ifs with hpre
    · -- the separator begins in the head, so something is left in front of `b`
      refine ⟨((c :: (a ++ sep)).drop sep.length), ?_, ?_⟩
      · have hlen : sep.length ≤ (c :: (a ++ sep)).length := by
          rw [List.length_cons, List.length_append]
          omega
        rw [← List.append_assoc, ← List.cons_append, List.drop_append_of_le_length hlen]
      · refine iff_of_false (fun h => ?_) (fun h => h (.inl hpre))
        have hlen := List.drop_eq_nil_iff.mp h
        rw [List.length_cons, List.length_append] at hlen
        omega
    · exact ⟨r, hr, hiff.trans (not_congr (or_iff_right hpre).symm)⟩

end AskFable.Cut

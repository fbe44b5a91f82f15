import Mathlib.Data.List.DropRight
import Mathlib.Data.List.Induction

/-!
# Lines of a list

A list cut after each separator. Every line ends with its separator except that the last
may lack one, so what is appended to a complete list starts a line of its own.
-/
namespace AskFable.Lines

variable {α : Type*} [DecidableEq α] (sep : α)

def lines : List α → List (List α)
  | [] => []
  | a :: l =>
    if a = sep then [a] :: lines l
    else
      match lines l with
      | [] => [[a]]
      | line :: rest => (a :: line) :: rest

/-- The last line has its separator, if there is a line. -/
def Complete (l : List α) : Prop := ∀ a, l.getLast? = some a → a = sep

variable {sep} {l : List α}

theorem lines_ended (h : sep ∉ l) (r : List α) :
    lines sep (l ++ sep :: r) = (l ++ [sep]) :: lines sep r := by
  induction l with
  | nil => simp [lines]
  | cons a l ih =>
    rw [List.mem_cons, not_or] at h
    rw [List.cons_append, lines, if_neg (Ne.symm h.1), ih h.2]
    rfl

theorem lines_unbroken (h : sep ∉ l) (hne : l ≠ []) : lines sep l = [l] := by
  induction l with
  | nil => exact absurd rfl hne
  | cons a l ih =>
    rw [List.mem_cons, not_or] at h
    rw [lines, if_neg (Ne.symm h.1)]
    by_cases hl : l = []
    · rw [hl, lines]
    · rw [ih h.2 hl]

/-- The first line and what follows it. -/
theorem exists_line (sep : α) (hne : l ≠ []) :
    (sep ∉ l ∧ lines sep l = [l]) ∨
      ∃ x r, l = x ++ sep :: r ∧ sep ∉ x ∧ lines sep l = (x ++ [sep]) :: lines sep r := by
  by_cases h : sep ∈ l
  · obtain ⟨x, r, hl, hx⟩ := List.eq_append_cons_of_mem h
    exact .inr ⟨x, r, hl, hx, hl ▸ lines_ended hx r⟩
  · exact .inl ⟨h, lines_unbroken h hne⟩

omit [DecidableEq α] in
theorem Complete.of_append {x r : List α} (h : Complete sep (x ++ r)) : Complete sep r := by
  intro a ha
  exact h a (by rw [List.getLast?_append, ha]; rfl)

theorem lines_append (h : Complete sep l) (r : List α) :
    lines sep (l ++ r) = lines sep l ++ lines sep r := by
  induction hn : l.length using Nat.strongRecOn generalizing l with
  | _ n ih =>
    by_cases hne : l = []
    · rw [hne, List.nil_append, lines, List.nil_append]
    rcases exists_line sep hne with ⟨hsep, -⟩ | ⟨x, t, rfl, hx, hlines⟩
    · refine absurd ?_ hsep
      rw [← h _ (List.getLast?_eq_some_getLast hne)]
      exact List.getLast_mem hne
    · have ht : Complete sep t := (h.of_append (x := x)).of_append (x := [sep])
      rw [hlines, List.append_assoc, List.cons_append, lines_ended hx, List.cons_append,
        ih t.length (by simp at hn; omega) ht rfl]

/-! ### The last line -/

/-- The last line, if it lacks its separator. -/
def unfinished (sep : α) (l : List α) : List α := l.rtakeWhile (· ≠ sep)

/-- The lines that have their separator. -/
def whole (sep : α) (l : List α) : List α := l.rdropWhile (· ≠ sep)

theorem whole_append_unfinished (sep : α) (l : List α) : whole sep l ++ unfinished sep l = l :=
  List.rdropWhile_append_rtakeWhile

theorem notMem_unfinished (sep : α) (l : List α) : sep ∉ unfinished sep l := by
  intro h
  simpa using List.mem_rtakeWhile_imp h

theorem complete_whole (sep : α) (l : List α) : Complete sep (whole sep l) := by
  intro a ha
  have hne : whole sep l ≠ [] := by
    intro hnil
    simp [hnil] at ha
  have hlast : ¬((whole sep l).getLast hne ≠ sep : Bool) = true :=
    List.rdropWhile_last_not (· ≠ sep) l hne
  rw [(List.getLast_eq_iff_getLast?_eq_some hne).mpr ha] at hlast
  simpa using hlast

/-- What is appended goes on with the last line. -/
theorem lines_append_unfinished (sep : α) (l r : List α) :
    lines sep (l ++ r) = lines sep (whole sep l) ++ lines sep (unfinished sep l ++ r) := by
  conv_lhs => rw [← whole_append_unfinished sep l, List.append_assoc]
  exact lines_append (complete_whole sep l) _

theorem flatten_lines (sep : α) (l : List α) : (lines sep l).flatten = l := by
  induction hn : l.length using Nat.strongRecOn generalizing l with
  | _ n ih =>
    by_cases hne : l = []
    · rw [hne, lines, List.flatten_nil]
    rcases exists_line sep hne with ⟨-, hlines⟩ | ⟨x, t, rfl, -, hlines⟩
    · simp [hlines]
    · rw [hlines, List.flatten_cons, ih t.length (by simp at hn; omega) t rfl]
      simp

/-! ### Lines and the pieces between separators -/

theorem notMem_splitOn {p : List α} (h : p ∈ l.splitOn sep) : sep ∉ p := by
  induction l generalizing p with
  | nil => simp_all
  | cons a l ih =>
    rw [List.splitOn_cons_eq_if_modifyHead] at h
    by_cases ha : a = sep
    · simp only [ha, beq_self_eq_true, if_true, List.mem_cons] at h
      rcases h with rfl | h
      · simp
      · exact ih h
    · simp only [beq_iff_eq, ha, if_false] at h
      obtain ⟨q, ps, hq⟩ := List.exists_cons_of_ne_nil (List.splitOn_ne_nil sep l)
      rw [hq, List.modifyHead_cons, List.mem_cons] at h
      rcases h with rfl | h
      · rw [List.mem_cons, not_or]
        exact ⟨Ne.symm ha, ih (hq ▸ List.mem_cons_self)⟩
      · exact ih (hq ▸ List.mem_cons_of_mem q h)

/-- Between two pieces of a list stand whole lines. -/
theorem lines_splitOn {first last : List α} {inner : List (List α)}
    (h : l.splitOn sep = first :: inner ++ [last]) (r : List α) :
    lines sep (l ++ r) =
      (first ++ [sep]) :: (inner.map (· ++ [sep]) ++ lines sep (last ++ r)) := by
  have hsep : ∀ p ∈ first :: inner ++ [last], sep ∉ p := fun p hp => notMem_splitOn (h ▸ hp)
  have hl : [sep].intercalate (first :: inner ++ [last]) = l := by
    rw [← h, List.intercalate_splitOn]
  rw [← hl]
  clear h hl
  induction inner generalizing first with
  | nil =>
    have hfirst := hsep first (by simp)
    simp [List.intercalate, lines_ended hfirst]
  | cons p inner ih =>
    have hfirst := hsep first (by simp)
    rw [List.cons_append, List.cons_append, List.intercalate_cons_cons, List.append_assoc,
      List.append_assoc, List.singleton_append, lines_ended hfirst, ← List.cons_append,
      ih fun q hq => hsep q (by simp only [List.cons_append, List.mem_cons] at hq ⊢; tauto)]
    rfl

omit [DecidableEq α] in
theorem Complete.append_sep (l : List α) : Complete sep (l ++ [sep]) := by
  simp [Complete]

theorem lines_append_splitOn {first last : List α} {inner : List (List α)}
    (h : l.splitOn sep = first :: inner ++ [last]) (f r : List α) :
    lines sep (f ++ (l ++ r)) =
      lines sep (f ++ first ++ [sep]) ++ (inner.map (· ++ [sep]) ++ lines sep (last ++ r)) := by
  have hsep : sep ∉ first := notMem_splitOn (l := l) (by simp [h])
  have hlines := lines_splitOn h r
  have hl := flatten_lines sep (l ++ r)
  rw [hlines, List.flatten_cons, List.append_assoc, List.singleton_append] at hl
  rw [← hl, lines_ended hsep, List.cons.injEq] at hlines
  rw [← hlines.2, ← lines_append (Complete.append_sep (f ++ first)), ← hl]
  simp

theorem splitOn_singleton {p : List α} (h : l.splitOn sep = [p]) : p = l ∧ sep ∉ l := by
  have hl : [sep].intercalate [p] = l := by rw [← h, List.intercalate_splitOn]
  have hp : p = l := by simpa [List.intercalate] using hl
  exact ⟨hp, hp ▸ notMem_splitOn (h ▸ List.mem_singleton_self p)⟩

/-! ### Some of the lines -/

theorem lines_flatten_take (sep : α) (l : List α) (n : ℕ) :
    lines sep ((lines sep l).take n).flatten = (lines sep l).take n := by
  induction n generalizing l with
  | zero => rfl
  | succ n ih =>
    by_cases hne : l = []
    · simp [hne, lines]
    rcases exists_line sep hne with ⟨hsep, hlines⟩ | ⟨x, r, rfl, hx, hlines⟩
    · rw [hlines, List.take_succ_cons, List.take_nil, List.flatten_cons, List.flatten_nil,
        List.append_nil, hlines]
    · rw [hlines, List.take_succ_cons, List.flatten_cons, List.append_assoc, List.singleton_append,
        lines_ended hx, ih r]

theorem lines_flatten_drop (sep : α) (l : List α) (n : ℕ) :
    lines sep ((lines sep l).drop n).flatten = (lines sep l).drop n := by
  induction n generalizing l with
  | zero => rw [List.drop_zero, flatten_lines]
  | succ n ih =>
    by_cases hne : l = []
    · simp [hne, lines]
    rcases exists_line sep hne with ⟨-, hlines⟩ | ⟨x, r, rfl, -, hlines⟩
    · simp [hlines, lines]
    · rw [hlines, List.drop_succ_cons, ih r]

/-- Lines are kept one by one by a map that keeps the separator. -/
theorem lines_flatMap {β : Type*} [DecidableEq β] {f : β → List α} {nl : β}
    (hnl : f nl = [sep]) (hf : ∀ b, b ≠ nl → f b ≠ [] ∧ sep ∉ f b) (l : List β) :
    lines sep (l.flatMap f) = (lines nl l).map (List.flatMap f) := by
  have hsep : ∀ x : List β, nl ∉ x → sep ∉ x.flatMap f := by
    intro x hx hmem
    obtain ⟨b, hb, hin⟩ := List.mem_flatMap.mp hmem
    exact (hf b (ne_of_mem_of_not_mem hb hx)).2 hin
  induction hn : l.length using Nat.strongRecOn generalizing l with
  | _ n ih =>
    by_cases hne : l = []
    · simp [hne, lines]
    rcases exists_line nl hne with ⟨hl, hlines⟩ | ⟨x, r, rfl, hx, hlines⟩
    · have hflat : l.flatMap f ≠ [] := by
        obtain ⟨b, t, rfl⟩ := List.exists_cons_of_ne_nil hne
        rw [List.flatMap_cons]
        exact List.append_ne_nil_of_left_ne_nil
          (hf b (ne_of_mem_of_not_mem List.mem_cons_self hl)).1 _
      rw [hlines, lines_unbroken (hsep l hl) hflat, List.map_singleton]
    · rw [hlines, List.flatMap_append, List.flatMap_cons, hnl, List.singleton_append,
        lines_ended (hsep x hx), ih r.length (by simp at hn; omega) r rfl, List.map_cons,
        List.flatMap_append, List.flatMap_cons, hnl, List.flatMap_nil, List.append_nil]

omit [DecidableEq α] in
/-- A tail of one kind of elements, behind one that is of another. -/
theorem rspan_append_cons {p : α → Bool} (x : List α) {c : α} {y : List α} (hc : p c = false)
    (hy : y.all p = true) :
    (x ++ c :: y).rtakeWhile p = y ∧ (x ++ c :: y).rdropWhile p = x ++ [c] := by
  have hall : ∀ d ∈ y.reverse, p d = true := fun d hd =>
    List.all_eq_true.mp hy d (List.mem_reverse.mp hd)
  have hreverse : (x ++ c :: y).reverse = y.reverse ++ c :: x.reverse := by simp
  rw [List.rtakeWhile, List.rdropWhile, hreverse, List.takeWhile_append_of_pos hall,
    List.dropWhile_append_of_pos hall]
  simp [hc]

end AskFable.Lines

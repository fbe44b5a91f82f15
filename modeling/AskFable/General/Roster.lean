import Mathlib.Data.List.Nodup
import Mathlib.Data.Set.Function

/-!
# Names by position

Elements enrolled once each, one of them moved behind the others, and the table that gives
each the name of its position, forwards and backwards.
-/
namespace AskFable.Roster

variable {κ ν δ : Type*}

section Enrolment
variable [DecidableEq κ]

/-- The roster with an element on it, at the end if it is new. -/
def enroll (l : List κ) (k : κ) : List κ := if k ∈ l then l else l ++ [k]

/-- The roster with an element behind all others. -/
def setLast (r : κ) (l : List κ) : List κ := l.filter (· ≠ r) ++ l.filter (· = r)

variable {l : List κ} {k : κ}

theorem mem_enroll {j : κ} : j ∈ enroll l k ↔ j ∈ l ∨ j = k := by
  unfold enroll
  split_ifs with hk
  · exact ⟨.inl, fun h => h.elim id fun heq => heq ▸ hk⟩
  · rw [List.mem_append, List.mem_singleton]

theorem Nodup.enroll (h : l.Nodup) (k : κ) : (enroll l k).Nodup := by
  unfold Roster.enroll
  split_ifs with hk
  · exact h
  · rw [← List.concat_eq_append]
    exact h.concat hk

theorem mem_foldl_enroll {ks : List κ} {j : κ} : j ∈ ks.foldl enroll l ↔ j ∈ l ∨ j ∈ ks := by
  induction ks generalizing l with
  | nil => simp
  | cons k ks ih => rw [List.foldl_cons, ih, mem_enroll, List.mem_cons, or_assoc]

theorem Nodup.foldl_enroll (h : l.Nodup) (ks : List κ) : (ks.foldl Roster.enroll l).Nodup := by
  induction ks generalizing l with
  | nil => exact h
  | cons k ks ih => exact ih (Nodup.enroll h k)

theorem mem_setLast {r : κ} : k ∈ setLast r l ↔ k ∈ l := by
  simp only [setLast, List.mem_append, List.mem_filter, decide_eq_true_eq]
  tauto

theorem Nodup.setLast (h : l.Nodup) (r : κ) : (setLast r l).Nodup := by
  refine (h.filter _).append (h.filter _) ?_
  intro k hk hk'
  simp only [List.mem_filter, decide_eq_true_eq] at hk hk'
  exact hk.2 hk'.2

theorem length_setLast (r : κ) (l : List κ) : (setLast r l).length = l.length := by
  have h := l.length_eq_length_filter_add (· ≠ r)
  rw [setLast, List.length_append, h]
  simp

theorem idxOf_setLast [BEq κ] [LawfulBEq κ] (h : l.Nodup) {r : κ} (hr : r ∈ l) :
    (setLast r l).idxOf r = l.length - 1 := by
  have hone : l.filter (· = r) = [r] := by
    rw [← List.replicate_one, ← List.count_eq_one_of_mem h hr]
    exact List.filter_eq r
  have hlen := length_setLast r l
  have hother : r ∉ l.filter (· ≠ r) := by simp
  rw [setLast, hone] at hlen ⊢
  rw [List.idxOf_append_of_notMem hother, List.idxOf_cons_self, ← hlen]
  simp

end Enrolment

/-! ### The table -/

/-- Each element with the name of its position. -/
def roster (name : ℕ → ν) (l : List κ) : List (κ × ν) :=
  l.zipIdx.map fun k => (k.1, name k.2)

/-- What each name stands for. -/
def legend (f : κ → δ) (t : List (κ × ν)) : List (ν × δ) := t.map fun a => (a.2, f a.1)

variable {l : List κ} {k : κ} {name : ℕ → ν}

theorem roster_cons (name : ℕ → ν) (k : κ) (l : List κ) :
    roster name (k :: l) = (k, name 0) :: roster (fun i => name (i + 1)) l := by
  rw [roster, List.zipIdx_cons, List.zipIdx_succ, List.map_cons, List.map_map]
  rfl

variable [BEq κ] [LawfulBEq κ]

theorem lookup_roster (hk : k ∈ l) : (roster name l).lookup k = some (name (l.idxOf k)) := by
  induction l generalizing name with
  | nil => cases hk
  | cons j l ih =>
    rw [roster_cons]
    by_cases hj : j = k
    · rw [hj, List.lookup_cons_self, List.idxOf_cons_self]
    · have hrest : k ∈ l := (List.mem_cons.mp hk).resolve_left (Ne.symm hj)
      rw [List.lookup_cons, beq_eq_false_iff_ne.mpr (Ne.symm hj), List.idxOf_cons_ne l hj]
      exact ih hrest

variable {f : κ → δ}

section Backwards
variable [BEq ν] [LawfulBEq ν]

omit [BEq κ] [LawfulBEq κ] in
/-- Read backwards, a name leads to its position. -/
theorem lookup_legend (hname : Function.Injective name) (i : ℕ) :
    (legend f (roster name l)).lookup (name i) = l[i]?.map f := by
  induction l generalizing name i with
  | nil => rfl
  | cons j l ih =>
    rw [roster_cons, legend, List.map_cons]
    cases i with
    | zero => rw [List.lookup_cons_self, List.getElem?_cons_zero, Option.map_some]
    | succ i =>
      have hne : name (i + 1) ≠ name 0 := fun h => Nat.succ_ne_zero i (hname h)
      rw [List.lookup_cons, beq_eq_false_iff_ne.mpr hne, List.getElem?_cons_succ]
      exact ih (fun a b h => Nat.succ_inj.mp (hname h)) i

omit [BEq κ] [LawfulBEq κ] in
theorem exists_of_lookup_legend {b : ν} {d : δ}
    (h : (legend f (roster name l)).lookup b = some d) : ∃ i, b = name i := by
  obtain ⟨t, t', heq, -⟩ := List.lookup_eq_some_iff.mp h
  have hmem : (b, d) ∈ legend f (roster name l) := heq ▸ by simp
  obtain ⟨a, ha, hbd⟩ := List.mem_map.mp hmem
  obtain ⟨j, -, rfl⟩ := List.mem_map.mp ha
  exact ⟨j.2, (Prod.mk.inj hbd).1.symm⟩

theorem lookup_legend_iff (hname : Function.Injective name) (hl : l.Nodup) {b : ν} {d : δ} :
    (legend f (roster name l)).lookup b = some d ↔ ∃ k ∈ l, name (l.idxOf k) = b ∧ f k = d := by
  constructor
  · intro h
    obtain ⟨i, rfl⟩ := exists_of_lookup_legend h
    rw [lookup_legend hname, Option.map_eq_some_iff] at h
    obtain ⟨k, hk, rfl⟩ := h
    obtain ⟨hi, rfl⟩ := List.getElem?_eq_some_iff.mp hk
    exact ⟨l[i], List.getElem_mem hi, by rw [hl.idxOf_getElem i hi], rfl⟩
  · rintro ⟨k, hk, rfl, rfl⟩
    rw [lookup_legend hname, List.getElem?_eq_getElem (List.idxOf_lt_length_of_mem hk),
      List.getElem_idxOf, Option.map_some]

end Backwards

/-- The elements and the names of the first positions, one to one. -/
theorem bijOn_roster (hname : Function.Injective name) (hl : l.Nodup) :
    Set.BijOn (fun k => name (l.idxOf k)) {k | k ∈ l} {b | ∃ i < l.length, name i = b} := by
  refine ⟨fun k hk => ⟨l.idxOf k, List.idxOf_lt_length_of_mem hk, rfl⟩, ?_, ?_⟩
  · intro j hj k hk heq
    exact (List.idxOf_inj hj).mp (hname heq)
  · rintro b ⟨i, hi, rfl⟩
    exact ⟨l[i], List.getElem_mem hi, by simp only [hl.idxOf_getElem i hi]⟩

end AskFable.Roster

import AskFable.Python.Text
import Mathlib.Data.List.Sort

/-!
# Unicode normalisation

The two compatibility forms of `unicodedata.normalize` over the tables of the Unicode database:
full decomposition, canonical ordering of the marks, canonical composition. What holds of a text
is proved from what the tables say of its characters.
-/
namespace AskFable.Python
open AskFable.Text

/-- `unicodedata.category`. -/
inductive Category
  | lu | ll | lt | lm | lo
  | mn | mc | me
  | nd | nl | no
  | pc | pd | ps | pe | pi | pf | po
  | sm | sc | sk | so
  | zs | zl | zp
  | cc | cf | cs | co | cn
  deriving DecidableEq

/-- The tables of the Unicode database that `unicodedata` and `re` read. -/
structure Unicode where
  category : Cp → Category
  /-- The full compatibility decomposition. -/
  decomposition : Cp → Str
  /-- The canonical combining class. -/
  combining : Cp → ℕ
  /-- The primary composite of a pair. -/
  composite : Cp → Cp → Option Cp
  /-- What `IGNORECASE` compares: one character for all those of a letter. -/
  caseless : Cp → Cp
  caseless_ascii : ∀ c, c.val < 128 → caseless c = lowerAscii c

namespace Unicode
variable (u : Unicode)

/-! ### Canonical ordering -/

/-- A run of marks in the order of their classes. -/
def sortMarks (run : Str) : Str := run.insertionSort fun a b => u.combining a ≤ u.combining b

/-- The text from a run of marks on. -/
def reorderFrom (run : Str) : Str → Str
  | [] => u.sortMarks run
  | c :: s =>
    if u.combining c = 0 then u.sortMarks run ++ c :: reorderFrom [] s
    else reorderFrom (run ++ [c]) s

/-! ### Canonical composition -/

/-- The text from a starter on, with the marks after it that did not compose and the class of the
last of them. -/
def composeFrom (starter : Option Cp) (marks : Str) (last : ℕ) : Str → Str
  | [] => starter.toList ++ marks
  | c :: s =>
    match starter with
    | none =>
      if u.combining c = 0 then composeFrom (some c) [] 0 s else c :: composeFrom none [] 0 s
    | some l =>
      -- a mark is blocked behind one of its class, a starter behind any mark
      match if marks = [] ∨ last < u.combining c then u.composite l c else none with
      | some d => composeFrom (some d) marks last s
      | none =>
        if u.combining c = 0 then l :: marks ++ composeFrom (some c) [] 0 s
        else composeFrom (some l) (marks ++ [c]) (u.combining c) s

/-- `unicodedata.normalize("NFKD", s)`. -/
def nfkd (s : Str) : Str := u.reorderFrom [] (s.flatMap u.decomposition)

/-- `unicodedata.normalize("NFKC", s)`. -/
def nfkc (s : Str) : Str := u.composeFrom none [] 0 (u.nfkd s)

variable {u}

/-- Ordering the marks moves no character of class 0, so it is not seen where only those are
kept. -/
theorem filter_reorderFrom {keep : Cp → Bool} (run s : Str)
    (h : ∀ c ∈ run ++ s, keep c = true → u.combining c = 0)
    (hrun : ∀ c ∈ run, keep c = false) :
    (u.reorderFrom run s).filter keep = s.filter keep := by
  have hsort : ∀ r : Str, (∀ c ∈ r, keep c = false) → (u.sortMarks r).filter keep = [] := by
    intro r hr
    rw [List.filter_eq_nil_iff]
    intro c hc
    rw [hr c ((List.perm_insertionSort _ r).mem_iff.mp hc)]
    exact Bool.false_ne_true
  induction s generalizing run with
  | nil => exact hsort run hrun
  | cons c s ih =>
    rw [reorderFrom]
    split_ifs with hc
    · rw [List.filter_append, hsort run hrun, List.nil_append, List.filter_cons, List.filter_cons,
        ih [] (fun d hd => h d (by simp_all)) (by simp)]
    · have hkeep : keep c = false := by
        rw [Bool.eq_false_iff]
        exact fun hk => hc (h c (by simp) hk)
      rw [ih (run ++ [c]) (fun d hd => h d (by simpa using hd)), List.filter_cons, hkeep,
        if_neg Bool.false_ne_true]
      intro d hd
      rcases List.mem_append.mp hd with hd | hd
      · exact hrun d hd
      · exact List.mem_singleton.mp hd ▸ hkeep

theorem reorderFrom_nil {s : Str} (h : ∀ c ∈ s, u.combining c = 0) : u.reorderFrom [] s = s := by
  induction s with
  | nil => simp [reorderFrom, sortMarks]
  | cons c s ih =>
    rw [List.forall_mem_cons] at h
    rw [reorderFrom, if_pos h.1, ih h.2]
    simp [sortMarks]

/-- Starters that compose with nothing before them stay. -/
theorem composeFrom_starters {s : Str}
    (h : ∀ c ∈ s, u.combining c = 0 ∧ ∀ l, u.composite l c = none) (starter : Option Cp) :
    u.composeFrom starter [] 0 s = starter.toList ++ s := by
  induction s generalizing starter with
  | nil => rfl
  | cons c s ih =>
    rw [List.forall_mem_cons] at h
    cases starter with
    | none =>
      rw [composeFrom, if_pos h.1.1, ih h.2]
      rfl
    | some l =>
      simp only [composeFrom, true_or, if_true, h.1.2, if_pos h.1.1, ih h.2]
      rfl

end Unicode

end AskFable.Python

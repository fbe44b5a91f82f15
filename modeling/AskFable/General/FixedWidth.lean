import Mathlib.Data.List.Lex
import Mathlib.Data.List.Forall2
import Mathlib.Order.Lattice

/-!
# Fields of fixed width

Numbers written one after the other, each in a field of its own width, order as texts the
way the numbers order.
-/
namespace AskFable.FixedWidth

variable {α : Type*} [LinearOrder α]

theorem append_lt_append_iff {a b : List α} (h : a.length = b.length) (x y : List α) :
    a ++ x < b ++ y ↔ a < b ∨ a = b ∧ x < y := by
  induction a generalizing b with
  | nil =>
    obtain rfl := List.eq_nil_of_length_eq_zero h.symm
    simp
  | cons c a ih =>
    cases b with
    | nil => simp at h
    | cons d b =>
      simp only [List.cons_append, List.cons_lt_cons_iff, ih (by simpa using h), List.cons.injEq]
      tauto

variable (α) in
/-- A way to write the numbers below a bound. -/
structure Field where
  write : ℕ → List α
  bound : ℕ
  width : ℕ
  length_write : ∀ n < bound, (write n).length = width
  write_lt : ∀ n < bound, ∀ m < bound, write n < write m ↔ n < m

/-- The field with a fixed text after it. -/
def Field.before (f : Field α) (sep : List α) : Field α where
  write n := f.write n ++ sep
  bound := f.bound
  width := f.width + sep.length
  length_write n hn := by rw [List.length_append, f.length_write n hn]
  write_lt n hn m hm := by
    have hlen : (f.write n).length = (f.write m).length := by
      rw [f.length_write n hn, f.length_write m hm]
    rw [append_lt_append_iff hlen, f.write_lt n hn m hm]
    simp

theorem Field.write_injective (f : Field α) {n m : ℕ} (hn : n < f.bound) (hm : m < f.bound)
    (h : f.write n = f.write m) : n = m := by
  have hnm := f.write_lt n hn m hm
  have hmn := f.write_lt m hm n hn
  rw [h] at hnm hmn
  simp at hnm hmn
  omega

def render : List (Field α) → List ℕ → List α
  | f :: fs, n :: ns => f.write n ++ render fs ns
  | _, _ => []

def Fits (fs : List (Field α)) (ns : List ℕ) : Prop := List.Forall₂ (fun f n => n < f.bound) fs ns

theorem render_lt {fs : List (Field α)} {ns ms : List ℕ} (hn : Fits fs ns) (hm : Fits fs ms)
    (x y : List α) : render fs ns ++ x < render fs ms ++ y ↔ ns < ms ∨ ns = ms ∧ x < y := by
  induction hn generalizing ms with
  | nil =>
    cases hm
    simp [render]
  | @cons f n fs ns hf _ ih =>
    cases hm with
    | @cons _ m _ ms hg htail =>
      have hlen : (f.write n).length = (f.write m).length := by
        rw [f.length_write n hf, f.length_write m hg]
      have heq : f.write n = f.write m ↔ n = m :=
        ⟨f.write_injective hf hg, fun h => by rw [h]⟩
      rw [render, render, List.append_assoc, List.append_assoc, append_lt_append_iff hlen,
        ih htail, f.write_lt n hf m hg, heq, List.cons_lt_cons_iff, List.cons.injEq]
      tauto

end AskFable.FixedWidth

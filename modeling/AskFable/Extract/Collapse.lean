import AskFable.Extract.Blocks

/-!
# Collapsed line breaks

A review's prose keeps at most two line breaks in a row. Dropping a line break that
follows another leaves the words of a text, and what stands at its ends but for
whitespace.
-/
namespace AskFable.Extract
open AskFable.Text AskFable.Regex
open Verify (BREAKS_RE collapse)

def isBreak (c : Cp) : Bool := c == cp '\n'

/-! ### What the pattern finds -/

theorem breaks_prefix_iff (s : Str) :
    [cp '\n', cp '\n', cp '\n'].isPrefixOf s = decide (3 ≤ (s.takeWhile isBreak).length) := by
  have hstep (c : Cp) (n : ℕ) (s : Str) : (List.replicate (n + 1) (cp '\n')).isPrefixOf (c :: s) =
      (isBreak c && (List.replicate n (cp '\n')).isPrefixOf s) := by
    rw [List.replicate_succ, List.isPrefixOf, isBreak, Bool.beq_comm]
  have hall (n : ℕ) (s : Str) : (List.replicate n (cp '\n')).isPrefixOf s =
      decide (n ≤ (s.takeWhile isBreak).length) := by
    induction n generalizing s with
    | zero => simp
    | succ n ih =>
      cases s with
      | nil => simp [List.replicate_succ]
      | cons c s =>
        rw [hstep, ih]
        by_cases hc : isBreak c = true <;> simp [hc]
  exact hall 3 s

theorem read_breaks : ReadBy BREAKS_RE fun s =>
    if 3 ≤ (s.takeWhile isBreak).length then some (s.dropWhile isBreak, []) else none := by
  refine .of_run (fun pre post => ?_) fun s r hr => ?_
  · have hseq : run BREAKS_RE ⟨pre, post, []⟩ =
        (run (.word [cp '\n', cp '\n', cp '\n']) ⟨pre, post, []⟩).flatMap
          (run (.star true (.set isBreak))) := rfl
    rw [hseq, run_word]
    by_cases hpre : [cp '\n', cp '\n', cp '\n'].isPrefixOf post = true
    · have h3 := of_decide_eq_true ((breaks_prefix_iff post).symm.trans hpre)
      obtain ⟨rest, rfl⟩ := List.isPrefixOf_iff_prefix.mp hpre
      have hskip : ([cp '\n', cp '\n', cp '\n'] ++ rest).dropWhile isBreak =
          rest.dropWhile isBreak := by simp [isBreak]
      rw [if_pos hpre, if_pos h3, List.flatMap_cons, List.flatMap_nil, List.append_nil,
        head?_star_greedy, Option.map_some, hskip]
      simp only [outcome, Pos.advance, List.drop_left, drop_takeWhile]
    · have h3 : ¬3 ≤ (post.takeWhile isBreak).length := fun h =>
        hpre ((breaks_prefix_iff post).trans (decide_eq_true h))
      rw [if_neg hpre, if_neg h3]
      rfl
  · split_ifs at hr with h3
    rw [← Option.some.inj hr]
    have hlen := congrArg List.length (List.takeWhile_append_dropWhile (p := isBreak) (l := s))
    rw [List.length_append] at hlen
    dsimp only
    omega

theorem collapse_char {c : Cp} (hc : isBreak c = false) (s : Str) :
    collapse (c :: s) = c :: collapse s :=
  read_breaks.sub_skip _ (by simp [hc])

theorem takeWhile_breaks (n : ℕ) {s : Str} (hs : ∀ c ∈ s.head?, isBreak c = false) :
    (List.replicate n (cp '\n') ++ s).takeWhile isBreak = List.replicate n (cp '\n') ∧
      (List.replicate n (cp '\n') ++ s).dropWhile isBreak = s := by
  have hall : ∀ c ∈ List.replicate n (cp '\n'), isBreak c = true := by
    intro c hc
    rw [List.eq_of_mem_replicate hc]
    rfl
  rw [List.takeWhile_append_of_pos hall, List.dropWhile_append_of_pos hall]
  cases s with
  | nil => simp
  | cons c s => simp [hs c rfl]

/-- A stretch of line breaks keeps two at most. -/
theorem collapse_breaks (n : ℕ) {s : Str} (hs : ∀ c ∈ s.head?, isBreak c = false) :
    collapse (List.replicate n (cp '\n') ++ s) =
      List.replicate (if 3 ≤ n then 2 else n) (cp '\n') ++ collapse s := by
  obtain ⟨htake, hdrop⟩ := takeWhile_breaks n hs
  split_ifs with h3
  · exact read_breaks.sub_hit (s := List.replicate n (cp '\n') ++ s) (r := (s, [])) _
      (by rw [htake, hdrop, List.length_replicate, if_pos h3])
  · -- one or two line breaks are passed over
    have hfew : n = 0 ∨ n = 1 ∨ n = 2 := by omega
    have hone : collapse (cp '\n' :: s) = cp '\n' :: collapse s := by
      obtain ⟨h, -⟩ := takeWhile_breaks 1 hs
      refine read_breaks.sub_skip _ ?_
      rw [show cp '\n' :: s = List.replicate 1 (cp '\n') ++ s from rfl, h]
      rfl
    rcases hfew with rfl | rfl | rfl
    · rfl
    · exact hone
    · have htwo : collapse (cp '\n' :: cp '\n' :: s) = cp '\n' :: collapse (cp '\n' :: s) := by
        refine read_breaks.sub_skip _ ?_
        rw [show cp '\n' :: cp '\n' :: s = List.replicate 2 (cp '\n') ++ s from rfl, htake]
        rfl
      exact htwo.trans (by rw [hone]; rfl)

/-- A text begins with a stretch of line breaks, or with another code point. -/
theorem breaks_induction {motive : Str → Prop} (nil : ∀ n, motive (List.replicate n (cp '\n')))
    (char : ∀ n c s, isBreak c = false → motive s →
      motive (List.replicate n (cp '\n') ++ c :: s)) (s : Str) : motive s := by
  have hsplit (s : Str) : s = List.replicate (s.takeWhile isBreak).length (cp '\n') ++
      s.dropWhile isBreak := by
    have hall : s.takeWhile isBreak = List.replicate (s.takeWhile isBreak).length (cp '\n') := by
      refine List.eq_replicate_of_mem fun c hc => ?_
      have hbreak : isBreak c = true := List.mem_takeWhile_imp hc
      simpa [isBreak] using hbreak
    rw [← hall, List.takeWhile_append_dropWhile]
  induction hn : s.length using Nat.strong_induction_on generalizing s with
  | _ n ih =>
    rw [hsplit s]
    cases hd : s.dropWhile isBreak with
    | nil => simpa using nil (s.takeWhile isBreak).length
    | cons c r =>
      have hc : isBreak c = false := by
        have hhead := List.head?_dropWhile_not isBreak s
        rw [hd] at hhead
        simpa using hhead
      refine char _ c r hc (ih r.length ?_ r rfl)
      have hle := (List.dropWhile_sublist isBreak (l := s)).length_le
      rw [hd, List.length_cons] at hle
      omega

/-! ### What is left of a text -/

/-- A text and the same with some line breaks dropped that follow a line break. -/
inductive Thinned : Str → Str → Prop
  | nil : Thinned [] []
  | keep (c : Cp) {s r : Str} (h : Thinned s r) : Thinned (c :: s) (c :: r)
  | drop {s r : Str} (h : Thinned (cp '\n' :: s) r) : Thinned (cp '\n' :: cp '\n' :: s) r

namespace Thinned

theorem refl (s : Str) : Thinned s s := by
  induction s with
  | nil => exact .nil
  | cons c s ih => exact .keep c ih

theorem append_left (w : Str) {s r : Str} (h : Thinned s r) : Thinned (w ++ s) (w ++ r) := by
  induction w with
  | nil => exact h
  | cons c w ih => exact .keep c ih

theorem breaks {m n : ℕ} (hm : 0 < m) (hmn : m ≤ n) {s r : Str} (h : Thinned s r) :
    Thinned (List.replicate n (cp '\n') ++ s) (List.replicate m (cp '\n') ++ r) := by
  induction n with
  | zero => omega
  | succ n ih =>
    by_cases heq : m = n + 1
    · exact heq ▸ append_left _ h
    · have hprev := ih (by omega)
      cases n with
      | zero => omega
      | succ n => exact .drop hprev

end Thinned

theorem thinned_collapse (s : Str) : Thinned s (collapse s) := by
  have hcap (n : ℕ) {s r : Str} (h : Thinned s r) : Thinned (List.replicate n (cp '\n') ++ s)
      (List.replicate (if 3 ≤ n then 2 else n) (cp '\n') ++ r) := by
    split_ifs with h3
    · exact .breaks (by omega) (by omega) h
    · exact .append_left _ h
  induction s using breaks_induction with
  | nil n =>
    have h := collapse_breaks n (s := []) (by simp)
    rw [List.append_nil, show collapse [] = [] from rfl, List.append_nil] at h
    rw [h]
    simpa using hcap n .nil
  | char n c s hc ih =>
    rw [collapse_breaks n (by simpa using hc), collapse_char hc]
    exact hcap n (.keep c ih)

namespace Thinned

/-- Words without a line break begin at the same place. -/
theorem prefix_iff {w s r : Str} (hw : cp '\n' ∉ w) (h : Thinned s r) : w <+: s ↔ w <+: r := by
  induction h generalizing w with
  | nil => rfl
  | keep c _ ih =>
    cases w with
    | nil => exact iff_of_true List.nil_prefix List.nil_prefix
    | cons d w =>
      rw [List.mem_cons, not_or] at hw
      rw [List.cons_prefix_cons, List.cons_prefix_cons, ih hw.2]
  | drop _ ih =>
    cases w with
    | nil => exact iff_of_true List.nil_prefix List.nil_prefix
    | cons d w =>
      rw [← ih hw]
      rw [List.mem_cons, not_or] at hw
      exact iff_of_false (fun h => hw.1 (List.cons_prefix_cons.mp h).1.symm)
        (fun h => hw.1 (List.cons_prefix_cons.mp h).1.symm)

/-- A word without a line break stands in both texts or in neither. -/
theorem infix_iff {w s r : Str} (hw : cp '\n' ∉ w) (h : Thinned s r) : w <:+: s ↔ w <:+: r := by
  induction h with
  | nil => rfl
  | keep c h ih =>
    rw [List.infix_cons_iff, List.infix_cons_iff, ih, prefix_iff hw (.keep c h)]
  | @drop s r h ih =>
    rw [List.infix_cons_iff, ih, or_iff_right_of_imp]
    intro hpre
    exact (((Thinned.drop h).prefix_iff hw).mp hpre).isInfix

theorem mem {s r : Str} (h : Thinned s r) {c : Cp} (hc : c ∈ r) : c ∈ s := by
  induction h with
  | nil => exact hc
  | keep d _ ih =>
    rcases List.mem_cons.mp hc with rfl | hc
    · exact List.mem_cons_self
    · exact List.mem_cons_of_mem d (ih hc)
  | drop _ ih => exact List.mem_cons_of_mem _ (ih hc)

end Thinned

/-- Whitespace behind a text does not change what is left of it. -/
theorem strip_collapse_append (s : Str) {b : Str} (hb : ∀ c ∈ b, isSpace c = true) :
    strip (collapse (s ++ b)) = strip (collapse s) := by
  have hsplit : ∃ x y z, collapse (s ++ b) = x ++ y ∧ collapse s = x ++ z ∧
      (∀ c ∈ y, isSpace c = true) ∧ ∀ c ∈ z, isSpace c = true := by
    induction s using breaks_induction with
    | nil n =>
      have hbreak : isSpace (cp '\n') = true := by decide
      have hall : ∀ c ∈ List.replicate n (cp '\n'), isSpace c = true := fun c hc =>
        List.eq_of_mem_replicate hc ▸ hbreak
      refine ⟨[], _, _, rfl, rfl, fun c hc => ?_, fun c hc => ?_⟩
      · rcases List.mem_append.mp ((thinned_collapse _).mem hc) with h | h
        · exact hall c h
        · exact hb c h
      · exact hall c ((thinned_collapse _).mem hc)
    | char n c s hc ih =>
      obtain ⟨x, y, z, hy, hz, hspace⟩ := ih
      refine ⟨List.replicate (if 3 ≤ n then 2 else n) (cp '\n') ++ c :: x, y, z, ?_, ?_, hspace⟩
      · rw [List.append_assoc, List.cons_append, collapse_breaks n (by simpa using hc),
          collapse_char hc, hy]
        simp
      · rw [collapse_breaks n (by simpa using hc), collapse_char hc, hz]
        simp
  obtain ⟨x, y, z, hy, hz, hyspace, hzspace⟩ := hsplit
  rw [hy, hz, strip_append_space x hyspace, strip_append_space x hzspace]

end AskFable.Extract

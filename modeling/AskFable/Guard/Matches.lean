import AskFable.Guard.Denylist
import AskFable.Python.Language

/-!
# Where the patterns match

A term is a plain pattern between two boundaries, so the denylist's patterns match a stretch of a
text or not whatever else the text holds. A search finds a stretch if there is one.
-/
namespace AskFable.Regex
open AskFable.Text

theorem foundFrom_iff {m : Pos → List Pos} {pre post : Str} :
    foundFrom m pre post = true ↔ ∃ a b, post = a ++ b ∧ m ⟨a.reverse ++ pre, b, []⟩ ≠ [] := by
  induction post generalizing pre with
  | nil =>
    rw [foundFrom]
    constructor
    · exact fun h => ⟨[], [], rfl, by simpa using h⟩
    · rintro ⟨a, b, hab, hm⟩
      obtain ⟨rfl, rfl⟩ := List.append_eq_nil_iff.mp hab.symm
      simpa using hm
  | cons c post ih =>
    rw [foundFrom, Bool.or_eq_true, ih]
    constructor
    · rintro (h | ⟨a, b, rfl, hm⟩)
      · exact ⟨[], c :: post, rfl, by simpa using h⟩
      · exact ⟨c :: a, b, rfl, by simpa using hm⟩
    · rintro ⟨a, b, hab, hm⟩
      cases a with
      | nil =>
        rw [List.nil_append] at hab
        subst hab
        exact .inl (by simpa using hm)
      | cons x a =>
        obtain ⟨rfl, rfl⟩ := List.cons.inj hab
        exact .inr ⟨a, b, rfl, by simpa using hm⟩

/-! ### Derived forms -/

theorem mem_or_eq_of_mem_intersperse {sep a : Re} {l : List Re} (h : a ∈ l.intersperse sep) :
    a ∈ l ∨ a = sep := by
  induction l with
  | nil => cases h
  | cons b l ih =>
    cases l with
    | nil => exact .inl h
    | cons c l =>
      rw [List.intersperse_cons_cons, List.mem_cons, List.mem_cons] at h
      rcases h with rfl | rfl | h
      · exact .inl List.mem_cons_self
      · exact .inr rfl
      · exact (ih h).imp_left (List.mem_cons_of_mem b)

theorem mem_intersperse {a : Re} (sep : Re) {l : List Re} (h : a ∈ l) : a ∈ l.intersperse sep := by
  induction l with
  | nil => cases h
  | cons b l ih =>
    cases l with
    | nil => exact h
    | cons c l =>
      rw [List.intersperse_cons_cons, List.mem_cons, List.mem_cons]
      rcases List.mem_cons.mp h with rfl | h
      · exact .inl rfl
      · exact .inr (.inr (ih h))

namespace Re

theorem seqs_cons_cons (a b : Re) (l : List Re) : seqs (a :: b :: l) = .seq a (seqs (b :: l)) := rfl

theorem alts_cons_cons (a b : Re) (l : List Re) : alts (a :: b :: l) = .alt a (alts (b :: l)) := rfl

theorem plain_seqs {l : List Re} (h : ∀ a ∈ l, a.plain = true) : (seqs l).plain = true := by
  induction l with
  | nil => rfl
  | cons a l ih =>
    rw [List.forall_mem_cons] at h
    cases l with
    | nil => exact h.1
    | cons b l => rw [seqs_cons_cons, plain, h.1, ih h.2, Bool.and_self]

theorem plain_alts {l : List Re} (h : ∀ a ∈ l, a.plain = true) : (alts l).plain = true := by
  induction l with
  | nil => rfl
  | cons a l ih =>
    rw [List.forall_mem_cons] at h
    cases l with
    | nil => exact h.1
    | cons b l => rw [alts_cons_cons, plain, h.1, ih h.2, Bool.and_self]

end Re

theorem accepts_alts {l : List Re} {w : Str} : Accepts (.alts l) w ↔ ∃ a ∈ l, Accepts a w := by
  induction l with
  | nil => simp [Re.alts, accepts_set]
  | cons a l ih =>
    cases l with
    | nil => simp [Re.alts]
    | cons b l => rw [Re.alts_cons_cons, accepts_alt, ih, List.exists_mem_cons_iff (a := a)]

/-- Every part of a sequence accepts a stretch of what the sequence accepts. -/
theorem exists_of_accepts_seqs {l : List Re} {w : Str} (h : Accepts (.seqs l) w) :
    ∀ a ∈ l, ∃ v, Accepts a v ∧ v <:+: w := by
  induction l generalizing w with
  | nil => simp
  | cons a l ih =>
    cases l with
    | nil => simpa using ⟨w, h, List.infix_rfl⟩
    | cons b l =>
      obtain ⟨v, x, hv, hx, rfl⟩ := accepts_seq.mp h
      refine List.forall_mem_cons.mpr ⟨⟨v, hv, (List.prefix_append v x).isInfix⟩, fun c hc => ?_⟩
      obtain ⟨y, hy, hyx⟩ := ih hx c hc
      exact ⟨y, hy, hyx.trans (List.suffix_append v x).isInfix⟩

end AskFable.Regex

namespace AskFable.Guard
open AskFable.Text AskFable.Python AskFable.Regex

variable {u : Unicode}

/-! ### Words -/

theorem mem_split {term word : Str} (h : word ∈ split term) :
    word ≠ [] ∧ ∀ c ∈ word, isSpace c = false := by
  obtain ⟨hmem, hne⟩ := List.mem_filter.mp h
  refine ⟨by simpa using hne, fun c hc => ?_⟩
  clear h hne
  induction term generalizing word with
  | nil => simp_all
  | cons d term ih =>
    rw [List.splitOnP_cons_eq_if_modifyHead] at hmem
    obtain ⟨x, xs, hx⟩ := List.exists_cons_of_ne_nil (List.splitOnP_ne_nil isSpace term)
    rw [hx] at hmem ih
    split_ifs at hmem with hd
    · rcases List.mem_cons.mp hmem with rfl | hmem
      · cases hc
      · exact ih hmem hc
    · rw [List.modifyHead_cons, List.mem_cons] at hmem
      rcases hmem with rfl | hmem
      · rcases List.mem_cons.mp hc with rfl | hc
        · simpa using hd
        · exact ih List.mem_cons_self hc
      · exact ih (List.mem_cons_of_mem x hmem) hc

theorem accepts_literal {w v : Str} (h : Accepts (literal u w) v) :
    List.Forall₂ (fun c d => u.caseless d = u.caseless c) w v := by
  induction w generalizing v with
  | nil => rw [accepts_empty.mp h]; exact .nil
  | cons c w ih =>
    obtain ⟨x, y, hx, hy, rfl⟩ := accepts_seq.mp h
    obtain ⟨d, hd, rfl⟩ := accepts_set.mp hx
    exact .cons (by simpa using hd) (ih hy)

/-! ### The patterns are plain -/

theorem plain_literal (w : Str) : (literal u w).plain = true := by
  induction w with
  | nil => rfl
  | cons c w ih => rw [literal, List.foldr_cons, ← literal, Re.plain, ih]; rfl

theorem plain_inflect (word : Str) : (inflect u word).plain = true := by
  unfold inflect
  split_ifs
  · simp [Re.plain, plain_literal, INFLECT_E, Re.opt, lit, Re.alts]
  · simp [Re.plain, plain_literal, INFLECT, Re.opt, Re.alts]

theorem plain_joined (terms : List Str) : (joined u terms).plain = true := by
  refine Re.plain_alts fun a ha => ?_
  obtain ⟨term, -, rfl⟩ := List.mem_map.mp ha
  refine Re.plain_seqs fun b hb => ?_
  rcases mem_or_eq_of_mem_intersperse hb with hb | rfl
  · obtain ⟨word, -, rfl⟩ := List.mem_map.mp hb
    exact plain_inflect word
  · rfl

theorem plain_pattern (extra : List Str) : (pattern u extra).plain = true := plain_joined _

theorem bounded_reaches {body : Re} (s : Pos) : ∀ t ∈ bounded u body s, s.Reaches t := fun t ht =>
  run_reaches _ s t (List.mem_filter.mp ht).1

/-! ### Occurrences -/

variable (u) in
/-- The pattern matches a stretch of a text, between what stands before and after it. -/
structure Occurs (body : Re) (before w after : Str) : Prop where
  accepts : Accepts body w
  front : before.getLast?.elim false (isWord u) = false
  back : after.head?.elim false (isWord u) = false

theorem mem_bounded {body : Re} (h : body.plain = true) {before post : Str} {t : Pos} :
    t ∈ bounded u body ⟨before.reverse, post, []⟩ ↔
      ∃ w after, post = w ++ after ∧ t = ⟨w.reverse ++ before.reverse, after, []⟩ ∧
        Occurs u body before w after := by
  rw [bounded, List.mem_filter, run, List.mem_flatMap]
  constructor
  · rintro ⟨⟨x, hx, ht⟩, hback⟩
    rw [run] at hx
    split_ifs at hx with hfront
    · cases hx
    obtain rfl := List.mem_singleton.mp hx
    obtain ⟨w, hw, ⟨after, hpost⟩, rfl⟩ := (follows_of_plain h _ _).mp ht
    dsimp only at hpost
    subst hpost
    have hadvance : (⟨before.reverse, w ++ after, []⟩ : Pos).advance w =
        ⟨w.reverse ++ before.reverse, after, []⟩ := by simp [Pos.advance]
    rw [hadvance] at hback ⊢
    refine ⟨w, after, rfl, rfl, hw, ?_, by simpa using hback⟩
    simpa [List.head?_reverse] using hfront
  · rintro ⟨w, after, rfl, rfl, hw, hfront, hback⟩
    refine ⟨⟨⟨before.reverse, w ++ after, []⟩, ?_, ?_⟩, by simpa using hback⟩
    · rw [run, if_neg (by simpa [List.head?_reverse] using hfront)]
      exact List.mem_singleton_self _
    · refine (follows_of_plain h _ _).mpr ⟨w, hw, List.prefix_append w after, ?_⟩
      simp [Pos.advance]

/-- A search finds the stretches the pattern matches. -/
theorem search_iff {body : Re} (h : body.plain = true) {text : Str} :
    search u body text = true ↔
      ∃ before w after, text = before ++ w ++ after ∧ Occurs u body before w after := by
  rw [search, foundFrom_iff]
  constructor
  · rintro ⟨before, post, rfl, hne⟩
    obtain ⟨t, ht⟩ := List.exists_mem_of_ne_nil _ hne
    rw [List.append_nil, mem_bounded h] at ht
    obtain ⟨w, after, rfl, -, hoccurs⟩ := ht
    exact ⟨before, w, after, by simp, hoccurs⟩
  · rintro ⟨before, w, after, rfl, hoccurs⟩
    refine ⟨before, w ++ after, by simp, ?_⟩
    rw [List.append_nil]
    exact List.ne_nil_of_mem ((mem_bounded h).mpr ⟨w, after, rfl, rfl, hoccurs⟩)

end AskFable.Guard

import AskFable.Extract.Body
import AskFable.Extract.Collapse

/-!
# Reading a thinned text

A JSON reader that is given a text, and one that is given the same with some of the line
breaks dropped that follow a line break, read the same and stop at the same place: between
values a stretch of line breaks is whitespace however long it is, and within a value one
line break is refused as several are.
-/
namespace AskFable.Extract
open AskFable.Text AskFable.Python AskFable.Python.JsonText AskFable.Regex

namespace Thinned

variable {s r : Str}

theorem head_eq (h : Thinned s r) : s.head? = r.head? := by
  induction h with
  | nil => rfl
  | keep c h ih => rfl
  | drop h ih => exact ih

theorem eq_nil_iff (h : Thinned s r) : s = [] ↔ r = [] := by
  rw [← List.head?_eq_none_iff, h.head_eq, List.head?_eq_none_iff]

/-- Both texts begin with the same code point. -/
theorem cons_left {c : Cp} (h : Thinned (c :: s) r) : ∃ r', r = c :: r' := by
  cases r with
  | nil => cases h.eq_nil_iff.mpr rfl
  | cons d r =>
    have hhead := h.head_eq
    rw [List.head?_cons, List.head?_cons, Option.some.injEq] at hhead
    exact ⟨r, by rw [hhead]⟩

theorem cons_right {c : Cp} (h : Thinned s (c :: r)) : ∃ s', s = c :: s' := by
  cases s with
  | nil => cases h.eq_nil_iff.mp rfl
  | cons d s =>
    have hhead := h.head_eq
    rw [List.head?_cons, List.head?_cons, Option.some.injEq] at hhead
    exact ⟨s, by rw [hhead]⟩

theorem tail {c : Cp} (hc : c ≠ cp '\n') (h : Thinned (c :: s) (c :: r)) : Thinned s r := by
  cases h with
  | keep c h => exact h
  | drop h => exact absurd rfl hc

theorem dropWhile (p : Cp → Bool) (h : Thinned s r) : Thinned (s.dropWhile p) (r.dropWhile p) := by
  induction h with
  | nil => exact .nil
  | keep c h ih =>
    by_cases hc : p c = true
    · rwa [List.dropWhile_cons_of_pos hc, List.dropWhile_cons_of_pos hc]
    · rw [List.dropWhile_cons_of_neg hc, List.dropWhile_cons_of_neg hc]
      exact .keep c h
  | @drop s r h ih =>
    by_cases hn : p (cp '\n') = true
    · rwa [List.dropWhile_cons_of_pos hn]
    · obtain ⟨r, rfl⟩ := h.cons_left
      rw [List.dropWhile_cons_of_neg hn, List.dropWhile_cons_of_neg hn]
      exact .drop h

theorem takeWhile_eq {p : Cp → Bool} (hp : p (cp '\n') = false) (h : Thinned s r) :
    s.takeWhile p = r.takeWhile p := by
  induction h with
  | nil => rfl
  | keep c h ih => rw [List.takeWhile_cons, List.takeWhile_cons, ih]
  | drop h ih =>
    obtain ⟨r, rfl⟩ := h.cons_left
    simp [hp]

theorem takeWhile (p : Cp → Bool) (h : Thinned s r) : Thinned (s.takeWhile p) (r.takeWhile p) := by
  induction h with
  | nil => exact .nil
  | keep c h ih =>
    by_cases hc : p c = true
    · rw [List.takeWhile_cons_of_pos hc, List.takeWhile_cons_of_pos hc]
      exact .keep c ih
    · rw [List.takeWhile_cons_of_neg hc, List.takeWhile_cons_of_neg hc]
      exact .nil
  | @drop s r h ih =>
    by_cases hn : p (cp '\n') = true
    · rw [List.takeWhile_cons_of_pos hn] at ih
      rw [List.takeWhile_cons_of_pos hn, List.takeWhile_cons_of_pos hn]
      exact .drop ih
    · obtain ⟨r, rfl⟩ := h.cons_left
      rw [List.takeWhile_cons_of_neg hn, List.takeWhile_cons_of_neg hn]
      exact .nil

theorem append {s' r' : Str} (h : Thinned s r) (h' : Thinned s' r') :
    Thinned (s ++ s') (r ++ r') := by
  induction h with
  | nil => exact h'
  | keep c h ih => exact .keep c ih
  | drop h ih => exact .drop ih

theorem trans {q : Str} (h : Thinned s r) (h' : Thinned r q) : Thinned s q := by
  induction h generalizing q with
  | nil => exact h'
  | keep c h ih =>
    cases h' with
    | keep _ h' => exact .keep c (ih h')
    | drop h' =>
      obtain ⟨s, rfl⟩ := h.cons_right
      exact .drop (ih h')
  | drop h ih => exact .drop (ih h')

theorem reverse (h : Thinned s r) : Thinned s.reverse r.reverse := by
  induction h with
  | nil => exact .nil
  | keep c h ih =>
    rw [List.reverse_cons, List.reverse_cons]
    exact ih.append (.refl [c])
  | @drop s r h ih =>
    have hlast : Thinned (s.reverse ++ [cp '\n', cp '\n']) (s.reverse ++ [cp '\n']) :=
      (refl s.reverse).append (.drop (.refl _))
    refine trans ?_ ih
    simpa using hlast

theorem map {f : Cp → Cp} (hf : f (cp '\n') = cp '\n') (h : Thinned s r) :
    Thinned (s.map f) (r.map f) := by
  induction h with
  | nil => exact .nil
  | keep c h ih => exact .keep (f c) ih
  | drop h ih =>
    rw [List.map_cons, hf] at ih
    rw [List.map_cons, List.map_cons, hf]
    exact .drop ih

theorem strip (h : Thinned s r) : Thinned (strip s) (strip r) := by
  have hdrop := ((h.dropWhile isSpace).reverse.dropWhile isSpace).reverse
  exact hdrop

end Thinned

/-- What two readers made of a text and of a thinned one: the same value, and a thinned
rest. -/
def Alike {α : Type} (p q : α × Str) : Prop := p.1 = q.1 ∧ Thinned p.2 q.2

/-! ### Words -/

section

variable {s r : Str}

/-- A word without a line break is dropped from the front of both. -/
theorem Thinned.drop_word {w : Str} (hw : cp '\n' ∉ w) (h : Thinned (w ++ s) (w ++ r)) :
    Thinned s r := by
  induction w with
  | nil => exact h
  | cons c w ih =>
    rw [List.mem_cons, not_or] at hw
    exact ih hw.2 (h.tail (Ne.symm hw.1))

theorem past_thinned {w : Str} (hword : cp '\n' ∉ w) (h : Thinned s r) :
    Option.Rel Thinned (past w s) (past w r) := by
  unfold past
  have hpre := h.prefix_iff hword
  rw [← List.isPrefixOf_iff_prefix, ← List.isPrefixOf_iff_prefix] at hpre
  by_cases hs : w.isPrefixOf s = true
  · have hr := hpre.mp hs
    rw [if_pos hs, if_pos hr]
    obtain ⟨s, rfl⟩ := List.isPrefixOf_iff_prefix.mp hs
    obtain ⟨r, rfl⟩ := List.isPrefixOf_iff_prefix.mp hr
    rw [List.drop_left, List.drop_left]
    exact .some (h.drop_word hword)
  · rw [if_neg hs, if_neg fun hr => hs (hpre.mpr hr)]
    exact .none

theorem skipWs_thinned (h : Thinned s r) : Thinned (skipWs s) (skipWs r) := h.dropWhile isWs

theorem scanWord_thinned (h : Thinned s r) : Option.Rel Alike (scanWord s) (scanWord r) := by
  have hplain : ∀ w ∈ WORDS.map Prod.fst, cp '\n' ∉ w := by decide
  unfold scanWord
  generalize WORDS = words at hplain
  induction words with
  | nil => exact .none
  | cons w words ih =>
    rw [List.findSome?_cons, List.findSome?_cons]
    have hpast := past_thinned (hplain w.1 (by simp)) h
    generalize past w.1 s = x, past w.1 r = y at hpast
    cases hpast with
    | none => exact ih fun u hu => hplain u (by simp [hu])
    | some hrest => exact .some ⟨rfl, hrest⟩

/-! ### Strings -/

theorem scanStr_newline (st : StrState) (s : Str) : scanStr st (cp '\n' :: s) = none := by
  cases h : scanStr st (cp '\n' :: s) with
  | none => rfl
  | some p => exact absurd rfl (scanStr_step h).1

theorem emit_thinned {x y : Option (Str × Str)} (c : Cp) (h : Option.Rel Alike x y) :
    Option.Rel Alike (emit c x) (emit c y) := by
  cases h with
  | none => exact .none
  | some h => exact .some ⟨congrArg (c :: ·) h.1, h.2⟩

/-- The string scanner does the same with the same code point. -/
theorem scanStr_keep (h : Thinned s r)
    (ih : ∀ st, Option.Rel Alike (scanStr st s) (scanStr st r)) (st : StrState) (c : Cp) :
    Option.Rel Alike (scanStr st (c :: s)) (scanStr st (c :: r)) := by
  have hplain := ih .plain
  cases st with
  | plain =>
    rw [scanStr_plain_cons, scanStr_plain_cons]
    split_ifs
    · exact .some ⟨rfl, h⟩
    · exact ih .esc
    · exact .none
    · exact emit_thinned c hplain
  | esc =>
    rw [scanStr_esc_cons, scanStr_esc_cons]
    split_ifs
    · exact ih _
    · cases unescape c with
      | none => exact .none
      | some e => exact emit_thinned e hplain
  | hex left n =>
    rw [scanStr_hex_cons, scanStr_hex_cons]
    cases hexVal c with
    | none => exact .none
    | some d =>
      dsimp only [Option.bind_some]
      split_ifs
      · exact ih _
      · exact ih _
      · exact emit_thinned _ hplain
  | high hi =>
    rw [scanStr_high_cons, scanStr_high_cons]
    split_ifs
    · exact .some ⟨rfl, h⟩
    · exact ih _
    · exact .none
    · exact emit_thinned _ (emit_thinned c hplain)
  | highEsc hi =>
    rw [scanStr_highEsc_cons, scanStr_highEsc_cons]
    split_ifs
    · exact ih _
    · cases unescape c with
      | none => exact .none
      | some e => exact emit_thinned _ (emit_thinned e hplain)
  | highHex hi left n =>
    rw [scanStr_highHex_cons, scanStr_highHex_cons]
    cases hexVal c with
    | none => exact .none
    | some d =>
      dsimp only [Option.bind_some]
      split_ifs
      · exact ih _
      · exact emit_thinned _ hplain
      · exact emit_thinned _ (ih _)
      · exact emit_thinned _ (emit_thinned _ hplain)

theorem scanStr_thinned (h : Thinned s r) (st : StrState) :
    Option.Rel Alike (scanStr st s) (scanStr st r) := by
  induction h generalizing st with
  | nil => cases st <;> exact .none
  | keep c h ih => exact scanStr_keep h ih st c
  | drop h ih =>
    obtain ⟨r, rfl⟩ := h.cons_left
    rw [scanStr_newline, scanStr_newline]
    exact .none

theorem scanKey_thinned (h : Thinned s r) : Option.Rel Alike (scanKey s) (scanKey r) := by
  cases h with
  | nil => exact .none
  | drop h =>
    obtain ⟨r, rfl⟩ := h.cons_left
    exact .none
  | @keep c s r h =>
    unfold scanKey
    dsimp only
    split_ifs
    · have hstr := scanStr_thinned h .plain
      generalize scanStr .plain s = x, scanStr .plain r = y at hstr
      cases hstr with
      | none => exact .none
      | @some p q hpq =>
        have hpast := past_thinned (w := [cp ':']) (by decide) (skipWs_thinned hpq.2)
        dsimp only [Option.bind_some]
        generalize past [cp ':'] (skipWs p.2) = x, past [cp ':'] (skipWs q.2) = y at hpast
        cases hpast with
        | none => exact .none
        | some hrest => exact .some ⟨hpq.1, skipWs_thinned hrest⟩
    · exact .none

/-! ### Numbers -/

/-- An optional sign is there in both or in neither. -/
theorem sign_thinned {p : Cp → Bool} (hp : p (cp '\n') = false) (h : Thinned s r) :
    (s.take 1).filter p = (r.take 1).filter p ∧
      Thinned (s.drop ((s.take 1).filter p).length) (r.drop ((r.take 1).filter p).length) := by
  cases h with
  | nil => exact ⟨rfl, .nil⟩
  | @drop s r h =>
    obtain ⟨r, rfl⟩ := h.cons_left
    simpa [hp] using Thinned.drop h
  | @keep c s r h =>
    refine ⟨rfl, ?_⟩
    by_cases hc : p c = true
    · simpa [hc] using h
    · simpa [hc] using Thinned.keep c h

theorem digits_thinned (h : Thinned s r) :
    s.takeWhile isDigit = r.takeWhile isDigit ∧
      Thinned (s.dropWhile isDigit) (r.dropWhile isDigit) :=
  ⟨h.takeWhile_eq (by decide), h.dropWhile isDigit⟩

theorem integral_thinned (h : Thinned s r) : Alike (integral s) (integral r) := by
  have hdigits := digits_thinned h
  cases h with
  | nil => exact ⟨rfl, .nil⟩
  | drop h =>
    obtain ⟨r, rfl⟩ := h.cons_left
    exact hdigits
  | @keep c s r h =>
    unfold integral
    dsimp only
    split_ifs
    · exact ⟨rfl, h⟩
    · exact hdigits

theorem fraction_thinned (h : Thinned s r) : Alike (fraction s) (fraction r) := by
  cases h with
  | nil => exact ⟨rfl, .nil⟩
  | drop h =>
    obtain ⟨r, rfl⟩ := h.cons_left
    exact ⟨rfl, .drop h⟩
  | @keep c s r h =>
    obtain ⟨htake, hdrop⟩ := digits_thinned h
    unfold fraction
    dsimp only
    rw [htake]
    split_ifs
    · exact ⟨rfl, hdrop⟩
    · exact ⟨rfl, .keep c h⟩

theorem exponent_thinned (h : Thinned s r) : Alike (exponent s) (exponent r) := by
  cases h with
  | nil => exact ⟨rfl, .nil⟩
  | drop h =>
    obtain ⟨r, rfl⟩ := h.cons_left
    exact ⟨rfl, .drop h⟩
  | @keep c s r h =>
    obtain ⟨hsign, hrest⟩ := sign_thinned (p := fun d => d == cp '+' || d == cp '-') (by decide) h
    obtain ⟨htake, hdrop⟩ := digits_thinned hrest
    unfold exponent
    dsimp only
    rw [htake, hsign]
    rw [hsign] at hdrop
    split_ifs
    · exact ⟨rfl, hdrop⟩
    · exact ⟨rfl, .keep c h⟩
    · exact ⟨rfl, .keep c h⟩

end

/-! ### Values -/

/-- The same of readers that may fail: an error is the same error. -/
inductive AlikeResult {α : Type} : Except LoadError (α × Str) → Except LoadError (α × Str) → Prop
  | error (e : LoadError) : AlikeResult (.error e) (.error e)
  | ok {p q : α × Str} (h : Alike p q) : AlikeResult (.ok p) (.ok q)

theorem AlikeResult.split {α : Type} {x y : Except LoadError (α × Str)} (h : AlikeResult x y) :
    (∃ e, x = .error e ∧ y = .error e) ∨
      ∃ a s r, x = .ok (a, s) ∧ y = .ok (a, r) ∧ Thinned s r := by
  cases h with
  | error e => exact .inl ⟨e, rfl, rfl⟩
  | @ok p q h => exact .inr ⟨p.1, p.2, q.2, rfl, by rw [h.1], h.2⟩

theorem split_alike {α : Type} {x y : Option (α × Str)} (h : Option.Rel Alike x y) :
    (x = none ∧ y = none) ∨ ∃ a s r, x = some (a, s) ∧ y = some (a, r) ∧ Thinned s r := by
  cases h with
  | none => exact .inl ⟨rfl, rfl⟩
  | @some p q h => exact .inr ⟨p.1, p.2, q.2, rfl, by rw [h.1], h.2⟩

theorem Reads.length_le {s r : Str} (h : Reads s r) : r.length ≤ s.length := by
  obtain ⟨w, rfl, -⟩ := h
  simp

theorem past_mark_length {c : Cp} {s r : Str} (h : past [c] (skipWs s) = some r) :
    r.length < s.length := by
  unfold past at h
  split_ifs at h with hpre
  obtain ⟨rest, hrest⟩ := List.isPrefixOf_iff_prefix.mp hpre
  have hle := (List.dropWhile_sublist isWs (l := s)).length_le
  rw [skipWs] at hrest h
  rw [← hrest] at h hle
  obtain rfl : rest = r := by simpa using h
  simp only [List.length_append, List.length_singleton] at hle
  omega

section
variable [Host] {s r : Str}

theorem scanNumber_thinned (h : Thinned s r) : AlikeResult (scanNumber s) (scanNumber r) := by
  obtain ⟨hsign, hrest⟩ := sign_thinned (p := (· == cp '-')) (by decide) h
  have hint := integral_thinned hrest
  have hfrac := fraction_thinned hint.2
  have hexp := exponent_thinned hfrac.2
  unfold scanNumber
  dsimp only
  rw [hint.1, hfrac.1, hexp.1, hsign]
  rw [hsign] at hexp
  split_ifs
  · exact .error .value
  · exact .ok ⟨rfl, hexp.2⟩
  · exact .error .digits
  · exact .ok ⟨rfl, hexp.2⟩
  · exact .ok ⟨rfl, hexp.2⟩

/-- The three scanners on a text and on a thinned one, each with fuel enough. -/
structure ScanAlike (fuel : ℕ) : Prop where
  once : ∀ fuel' room (s r : Str), Thinned s r → 2 * s.length + 1 ≤ fuel →
    2 * r.length + 1 ≤ fuel' → AlikeResult (scanOnce fuel room s) (scanOnce fuel' room r)
  members : ∀ fuel' room acc (s r : Str), Thinned s r → 2 * s.length + 2 ≤ fuel →
    2 * r.length + 2 ≤ fuel' → AlikeResult (scanMembers fuel room acc s) (scanMembers fuel' room acc r)
  elements : ∀ fuel' room acc (s r : Str), Thinned s r → 2 * s.length + 2 ≤ fuel →
    2 * r.length + 2 ≤ fuel' →
      AlikeResult (scanElements fuel room acc s) (scanElements fuel' room acc r)

omit [Host] in
theorem skipWs_length (s : Str) : (skipWs s).length ≤ s.length :=
  (List.dropWhile_sublist isWs).length_le

omit [Host] in
/-- A container: closed at once, or read on. -/
theorem open_alike {α : Type} {c : Cp} (hc : c ≠ cp '\n') (h : Thinned s r) (a : α)
    {f g : Str → Except LoadError (α × Str)}
    (hread : AlikeResult (f (skipWs s)) (g (skipWs r))) :
    AlikeResult
      (match past [c] (skipWs s) with
        | some rest => .ok (a, rest)
        | none => f (skipWs s))
      (match past [c] (skipWs r) with
        | some rest => .ok (a, rest)
        | none => g (skipWs r)) := by
  have hpast := past_thinned (w := [c]) (by simpa using Ne.symm hc) (skipWs_thinned h)
  generalize past [c] (skipWs s) = x, past [c] (skipWs r) = y at hpast
  cases hpast with
  | none => exact hread
  | some hrest => exact .ok ⟨rfl, hrest⟩

theorem scanOnce_alike {fuel : ℕ} (ih : ScanAlike fuel) (fuel' room : ℕ) (h : Thinned s r)
    (hs : 2 * s.length + 1 ≤ fuel + 1) (hr : 2 * r.length + 1 ≤ fuel' + 1) :
    AlikeResult (scanOnce (fuel + 1) room s) (scanOnce (fuel' + 1) room r) := by
  cases s with
  | nil =>
    rw [h.eq_nil_iff.mp rfl]
    exact .error .value
  | cons c s =>
    obtain ⟨r, rfl⟩ := h.cons_left
    rw [List.length_cons] at hs hr
    have hslen := skipWs_length s
    have hrlen := skipWs_length r
    rw [scanOnce.eq_def (fuel + 1), scanOnce.eq_def (fuel' + 1)]
    dsimp only
    split_ifs with hq ho ha
    · have hstr := scanStr_thinned (h.tail (hq ▸ by decide)) .plain
      generalize scanStr .plain s = x, scanStr .plain r = y at hstr
      cases hstr with
      | none => exact .error .value
      | some hpq => exact .ok ⟨congrArg Json.str hpq.1, hpq.2⟩
    · have htail := h.tail (ho ▸ by decide)
      cases room with
      | zero => exact .error .recursion
      | succ room =>
        exact open_alike (by decide) htail _ (ih.members fuel' room [] _ _ (skipWs_thinned htail)
          (by omega) (by omega))
    · have htail := h.tail (ha ▸ by decide)
      cases room with
      | zero => exact .error .recursion
      | succ room =>
        exact open_alike (by decide) htail _ (ih.elements fuel' room [] _ _ (skipWs_thinned htail)
          (by omega) (by omega))
    · have hword := scanWord_thinned h
      have hnumber := scanNumber_thinned h
      generalize scanWord (c :: s) = x, scanWord (c :: r) = y at hword
      cases hword with
      | none => exact hnumber
      | some hpq => exact .ok hpq

omit [Host] in
/-- What follows a value in a container: its end, or a comma and more. -/
theorem rest_alike {α : Type} {c : Cp} (hc : c ≠ cp '\n') (h : Thinned s r) (a : α)
    {f g : Str → Except LoadError (α × Str)}
    (hnext : ∀ x y, Thinned x y → x.length < s.length → y.length < r.length →
      AlikeResult (f (skipWs x)) (g (skipWs y))) :
    AlikeResult
      (match past [c] (skipWs s) with
        | some rest => .ok (a, rest)
        | none =>
          match past [cp ','] (skipWs s) with
          | some rest => f (skipWs rest)
          | none => .error .value)
      (match past [c] (skipWs r) with
        | some rest => .ok (a, rest)
        | none =>
          match past [cp ','] (skipWs r) with
          | some rest => g (skipWs rest)
          | none => .error .value) := by
  have hend := past_thinned (w := [c]) (by simpa using Ne.symm hc) (skipWs_thinned h)
  have hcomma := past_thinned (w := [cp ',']) (by decide) (skipWs_thinned h)
  generalize past [c] (skipWs s) = x, past [c] (skipWs r) = y at hend
  cases hend with
  | some hrest => exact .ok ⟨rfl, hrest⟩
  | none =>
    dsimp only
    cases hx : past [cp ','] (skipWs s) with
    | none =>
      rw [hx] at hcomma
      generalize past [cp ','] (skipWs r) = y at hcomma
      cases hcomma
      exact .error .value
    | some x =>
      cases hy : past [cp ','] (skipWs r) with
      | none =>
        rw [hx, hy] at hcomma
        cases hcomma
      | some y =>
        rw [hx, hy] at hcomma
        cases hcomma with
        | some hrest => exact hnext x y hrest (past_mark_length hx) (past_mark_length hy)

theorem scanElements_alike {fuel : ℕ} (ih : ScanAlike fuel) (fuel' room : ℕ) (acc : List Json)
    (h : Thinned s r) (hs : 2 * s.length + 2 ≤ fuel + 1) (hr : 2 * r.length + 2 ≤ fuel' + 1) :
    AlikeResult (scanElements (fuel + 1) room acc s) (scanElements (fuel' + 1) room acc r) := by
  rw [scanElements, scanElements]
  rcases (ih.once fuel' room s r h (by omega) (by omega)).split with
    ⟨e, hx, hy⟩ | ⟨v, s', r', hx, hy, hrest⟩
  · rw [hx, hy]
    exact .error e
  · have hslen : s'.length ≤ s.length := ((scan_reads _).once _ _ _ hx).length_le
    have hrlen : r'.length ≤ r.length := ((scan_reads _).once _ _ _ hy).length_le
    rw [hx, hy]
    refine rest_alike (by decide) hrest _ fun x y hxy hxlen hylen => ?_
    have hxws := skipWs_length x
    have hyws := skipWs_length y
    exact ih.elements fuel' room _ _ _ (skipWs_thinned hxy) (by omega) (by omega)

theorem scanMembers_alike {fuel : ℕ} (ih : ScanAlike fuel) (fuel' room : ℕ) (acc : Dict)
    (h : Thinned s r) (hs : 2 * s.length + 2 ≤ fuel + 1) (hr : 2 * r.length + 2 ≤ fuel' + 1) :
    AlikeResult (scanMembers (fuel + 1) room acc s) (scanMembers (fuel' + 1) room acc r) := by
  rw [scanMembers, scanMembers]
  rcases split_alike (scanKey_thinned h) with ⟨hx, hy⟩ | ⟨key, s₁, r₁, hx, hy, hbehind⟩
  · rw [hx, hy]
    exact .error .value
  · have hskey : s₁.length ≤ s.length := (reads_scanKey hx).length_le
    have hrkey : r₁.length ≤ r.length := (reads_scanKey hy).length_le
    rw [hx, hy]
    dsimp only
    rcases (ih.once fuel' room s₁ r₁ hbehind (by omega) (by omega)).split with
      ⟨e, hx, hy⟩ | ⟨v, s', r', hx, hy, hrest⟩
    · rw [hx, hy]
      exact .error e
    · have hslen : s'.length ≤ s₁.length := ((scan_reads _).once _ _ _ hx).length_le
      have hrlen : r'.length ≤ r₁.length := ((scan_reads _).once _ _ _ hy).length_le
      rw [hx, hy]
      refine rest_alike (by decide) hrest _ fun x y hxy hxlen hylen => ?_
      have hxws := skipWs_length x
      have hyws := skipWs_length y
      exact ih.members fuel' room _ _ _ (skipWs_thinned hxy) (by omega) (by omega)

theorem scan_alike (fuel : ℕ) : ScanAlike fuel := by
  induction fuel with
  | zero => constructor <;> intros <;> omega
  | succ fuel ih =>
    refine ⟨fun fuel' room s r h hs hr => ?_, fun fuel' room acc s r h hs hr => ?_,
      fun fuel' room acc s r h hs hr => ?_⟩ <;> cases fuel' with
      | zero => omega
      | succ fuel' => ?_
    · exact scanOnce_alike ih fuel' room h hs hr
    · exact scanMembers_alike ih fuel' room acc h hs hr
    · exact scanElements_alike ih fuel' room acc h hs hr

/-- The byte order mark that `loads` looks for is no value either. -/
theorem loads_eq (s : Str) : loads s =
    match scanOnce (2 * s.length + 2) Host.nestLimit (skipWs s) with
      | .error e => .error e
      | .ok (v, rest) => if skipWs rest = [] then .ok v else .error .value := by
  unfold loads
  split_ifs with hmark
  · cases s with
    | nil => cases hmark
    | cons c s =>
      obtain rfl := Option.some.inj hmark
      have hskip : skipWs (Fin.ofNat _ 0xFEFF :: s) = Fin.ofNat _ 0xFEFF :: s :=
        List.dropWhile_cons_of_neg (by decide)
      rw [hskip]
      rfl
  · rfl

/-- A text loads as it does thinned, behind whatever whitespace. -/
theorem loads_thinned (h : Thinned (skipWs s) (skipWs r)) : loads s = loads r := by
  have hslen := skipWs_length s
  have hrlen := skipWs_length r
  have hscan := (scan_alike (2 * s.length + 2)).once (2 * r.length + 2) Host.nestLimit _ _ h
    (by omega) (by omega)
  rw [loads_eq, loads_eq]
  rcases hscan.split with ⟨e, hx, hy⟩ | ⟨v, s', r', hx, hy, hrest⟩
  · rw [hx, hy]
  · rw [hx, hy]
    exact if_congr (skipWs_thinned hrest).eq_nil_iff rfl rfl

end

/-! ### The repair -/

/-- A trailing comma at the start of a text: what follows the closing bracket, and the
whitespace with the bracket. -/
def trailing : Str → Option (Str × List (ℕ × Str))
  | [] => none
  | c :: s =>
    if c = cp ',' then
      match s.dropWhile isSpace with
      | d :: rest => if closer d then some (rest, [(1, s.takeWhile isSpace ++ [d])]) else none
      | [] => none
    else none

theorem closer_not_space {c : Cp} (hc : isSpace c = true) : closer c = false := by
  by_contra h
  rw [Bool.not_eq_false, closer, Bool.or_eq_true, beq_iff_eq, beq_iff_eq] at h
  rcases h with rfl | rfl
  · exact absurd hc (by decide)
  · exact absurd hc (by decide)

/-- The part of the pattern behind its comma. -/
theorem run_closing (pre s : Str) :
    run (.seq (.star true (.set isSpace)) (.set closer)) ⟨pre, s, []⟩ =
      match s.dropWhile isSpace with
      | d :: rest =>
        if closer d then [⟨d :: ((s.takeWhile isSpace).reverse ++ pre), rest, []⟩] else []
      | [] => [] := by
  have hstar := flatMap_star_greedy (p := isSpace) (k := run (.set closer))
    (fun pre c rest caps hc => by simp [run, closer_not_space hc]) ⟨pre, s, []⟩
  have hseq : run (.seq (.star true (.set isSpace)) (.set closer)) ⟨pre, s, []⟩ =
      run (.set closer) ((⟨pre, s, []⟩ : Pos).advance (s.takeWhile isSpace)) := hstar
  rw [hseq, Pos.advance, drop_takeWhile]
  cases s.dropWhile isSpace <;> rfl

theorem read_trailing : ReadBy TRAILING_RE trailing := by
  refine .of_run (fun pre post => ?_) fun s r hr => ?_
  · cases post with
    | nil => rfl
    | cons c s =>
      by_cases hc : c = cp ','
      · subst hc
        have hcomma : run TRAILING_RE ⟨pre, cp ',' :: s, []⟩ =
            (run (.seq (.star true (.set isSpace)) (.set closer)) ⟨cp ',' :: pre, s, []⟩).map
              fun t => { t with caps := (1, (⟨cp ',' :: pre, s, []⟩ : Pos).upto t) :: t.caps } := by
          simp [TRAILING_RE, run, Re.lit]
        rw [hcomma, run_closing, trailing, if_pos rfl]
        cases hd : s.dropWhile isSpace with
        | nil => rfl
        | cons d rest =>
          by_cases hclose : closer d = true
          · have htake (w : Str) (hw : s = w ++ [d] ++ rest) :
                s.take (s.length - rest.length) = w ++ [d] := by
              rw [hw, List.length_append, Nat.add_sub_cancel, List.take_left]
            have hupto := htake (s.takeWhile isSpace) (by
              rw [List.append_assoc, List.singleton_append, ← hd, List.takeWhile_append_dropWhile])
            simp [hclose, outcome, Pos.upto, hupto]
          · simp [hclose]
      · simp [TRAILING_RE, run, Re.lit, hc, trailing]
  · cases s with
    | nil => cases hr
    | cons c s =>
      rw [trailing] at hr
      split_ifs at hr
      have hlen := (List.dropWhile_sublist isSpace (l := s)).length_le
      cases hd : s.dropWhile isSpace with
      | nil =>
        rw [hd] at hr
        cases hr
      | cons d rest =>
        simp only [hd] at hr
        split_ifs at hr
        cases hr
        rw [hd, List.length_cons] at hlen
        simp only [List.length_cons]
        omega

section
variable {s r : Str}

theorem trailing_thinned (h : Thinned s r) :
    Option.Rel (fun x y => Thinned x.1 y.1 ∧
      Thinned ((x.2.lookup 1).getD []) ((y.2.lookup 1).getD [])) (trailing s) (trailing r) := by
  cases h with
  | nil => exact .none
  | drop h =>
    obtain ⟨r, rfl⟩ := h.cons_left
    exact .none
  | @keep c s r h =>
    have hspace := h.takeWhile isSpace
    have hrest := h.dropWhile isSpace
    unfold trailing
    dsimp only
    split_ifs
    · cases hs : s.dropWhile isSpace with
      | nil =>
        rw [hs] at hrest
        rw [hrest.eq_nil_iff.mp rfl]
        exact .none
      | cons d t =>
        rw [hs] at hrest
        obtain ⟨u, hu⟩ := hrest.cons_left
        rw [hu] at hrest ⊢
        dsimp only
        split_ifs with hd
        · have hbreak : d ≠ cp '\n' := by
            rintro rfl
            exact absurd hd (by decide)
          exact .some ⟨hrest.tail hbreak, hspace.append (.refl [d])⟩
        · exact .none
    · exact .none

/-- Without their trailing commas the two texts are as they were to each other. -/
theorem sub_trailing_thinned (h : Thinned s r) :
    Thinned (sub TRAILING_RE (fun m => m.group 1) s) (sub TRAILING_RE (fun m => m.group 1) r) := by
  induction hn : s.length using Nat.strong_induction_on generalizing s r with
  | _ n ih =>
    subst hn
    have hrel := trailing_thinned h
    cases hs : trailing s with
    | some x =>
      rw [hs] at hrel
      cases hr : trailing r with
      | none => rw [hr] at hrel; cases hrel
      | some y =>
        rw [hr] at hrel
        obtain ⟨hrest, hgroup⟩ := Option.rel_some_some.mp hrel
        rw [read_trailing.sub_hit _ hs, read_trailing.sub_hit _ hr]
        exact hgroup.append (ih _ (read_trailing.length hs) hrest rfl)
    | none =>
      have hr : trailing r = none := by
        rw [hs] at hrel
        generalize trailing r = y at hrel
        cases hrel
        rfl
      cases h with
      | nil => exact .nil
      | keep c h =>
        rw [read_trailing.sub_skip _ hs, read_trailing.sub_skip _ hr]
        exact .keep c (ih _ (by simp) h rfl)
      | drop h =>
        have hnext := ih _ (by simp) h rfl
        rw [read_trailing.sub_skip _ rfl] at hnext
        rw [read_trailing.sub_skip _ hs, read_trailing.sub_skip _ rfl]
        exact .drop hnext

theorem repair_thinned (h : Thinned s r) : Thinned (repair s) (repair r) :=
  sub_trailing_thinned (h.strip.map (by decide))

variable [Host]

theorem tryLoad_thinned (h : Thinned (skipWs s) (skipWs r)) : tryLoad s = tryLoad r := by
  rw [tryLoad, tryLoad, loads_thinned h]

/-- The bodies of two blocks, each behind the line break of its opening line. -/
theorem looseJson_thinned (h : Thinned (cp '\n' :: s) (cp '\n' :: r)) :
    looseJson s = looseJson r := by
  have hbreak (w : Str) : skipWs (cp '\n' :: w) = skipWs w := rfl
  have hstrip (w : Str) : repair (cp '\n' :: w) = repair w := rfl
  have hskip := skipWs_thinned h
  have hrepair := repair_thinned h
  rw [hbreak, hbreak] at hskip
  rw [hstrip, hstrip] at hrepair
  rw [looseJson, looseJson, tryLoad_thinned hskip, tryLoad_thinned (skipWs_thinned hrepair)]

end

end AskFable.Extract

import AskFable.Python.JsonText
import AskFable.Extract.Scan

/-!
# JSON bodies

A JSON text can hold a backtick inside a string only, and a string cannot hold a line
break. So no line of a JSON text starts with backticks, and the closing ticks of a block
are never found inside its body.
-/
namespace AskFable.Extract
open AskFable.Text AskFable.Python AskFable.Python.JsonText

/-- No line starts, after blanks, with a backtick; `fresh` where only blanks precede. -/
def calm : Bool → Str → Bool
  | _, [] => true
  | fresh, c :: s => !(fresh && c == cp '`') && calm (c == cp '\n' || fresh && isBlank c) s

theorem calm_cons (fresh : Bool) (c : Cp) (s : Str) : calm fresh (c :: s) =
    (!(fresh && c == cp '`') && calm (c == cp '\n' || fresh && isBlank c) s) := rfl

/-- Calm wherever on a line it begins. -/
def Calm (w : Str) : Prop := ∀ fresh, calm fresh w = true

theorem Calm.nil : Calm [] := fun _ => rfl

theorem calm_append {u v : Str} (hv : Calm v) {fresh : Bool} (hu : calm fresh u = true) :
    calm fresh (u ++ v) = true := by
  induction u generalizing fresh with
  | nil => exact hv fresh
  | cons c u ih =>
    rw [calm_cons, Bool.and_eq_true] at hu
    rw [List.cons_append, calm_cons, hu.1, Bool.true_and]
    exact ih hu.2

theorem Calm.append {u v : Str} (hu : Calm u) (hv : Calm v) : Calm (u ++ v) :=
  fun fresh => calm_append hv (hu fresh)

/-- A line that may start with anything may be joined anywhere. -/
theorem calm_weaken {s : Str} (h : calm true s = true) (fresh : Bool) : calm fresh s = true := by
  cases fresh with
  | true => exact h
  | false =>
    induction s with
    | nil => rfl
    | cons c s ih =>
      rw [calm_cons, Bool.and_eq_true] at h
      rw [calm_cons, Bool.false_and, Bool.not_false, Bool.true_and, Bool.false_and, Bool.or_false]
      cases hc : (c == cp '\n') with
      | true => rw [hc] at h; exact h.2
      | false =>
        rw [hc, Bool.false_or, Bool.true_and] at h
        cases hb : isBlank c with
        | true => rw [hb] at h; exact ih h.2
        | false => rw [hb] at h; exact h.2

theorem calm_plain {w : Str} (h : cp '`' ∉ w) : Calm w := by
  intro fresh
  induction w generalizing fresh with
  | nil => rfl
  | cons c w ih =>
    rw [List.mem_cons, not_or] at h
    have hc : (c == cp '`') = false := by simpa using Ne.symm h.1
    rw [calm_cons, hc, Bool.and_false, Bool.not_false, Bool.true_and]
    exact ih h.2 _

theorem calm_string {w : Str} (h : cp '\n' ∉ w) : Calm (cp '"' :: w) := by
  have hrest : calm false w = true := by
    induction w with
    | nil => rfl
    | cons c w ih =>
      rw [List.mem_cons, not_or] at h
      have hc : (c == cp '\n') = false := by simpa using Ne.symm h.1
      rw [calm_cons, hc, Bool.false_and, Bool.false_and, Bool.or_false]
      exact ih h.2
  intro fresh
  have hq : (cp '"' == cp '\n' || fresh && isBlank (cp '"')) = false := by cases fresh <;> decide
  have ht : (fresh && cp '"' == cp '`') = false := by cases fresh <;> decide
  rw [calm_cons, hq, ht, hrest]
  rfl

/-- What lies between two places of a JSON text is calm. -/
def Reads (s r : Str) : Prop := ∃ w, s = w ++ r ∧ Calm w

theorem Reads.refl (s : Str) : Reads s s := ⟨[], rfl, .nil⟩

theorem Reads.trans {s r q : Str} (h : Reads s r) (h' : Reads r q) : Reads s q := by
  obtain ⟨u, rfl, hu⟩ := h
  obtain ⟨v, rfl, hv⟩ := h'
  exact ⟨u ++ v, by simp, hu.append hv⟩

theorem Reads.char {c : Cp} (hc : c ≠ cp '`') (s : Str) : Reads (c :: s) s :=
  ⟨[c], rfl, calm_plain (by simpa using Ne.symm hc)⟩

theorem reads_skipWs (s : Str) : Reads s (skipWs s) := by
  refine ⟨s.takeWhile isWs, (List.takeWhile_append_dropWhile).symm, calm_plain fun h => ?_⟩
  exact absurd (List.mem_takeWhile_imp h) (by decide)

theorem reads_past {word s r : Str} (hword : cp '`' ∉ word) (h : past word s = some r) :
    Reads s r := by
  unfold past at h
  split_ifs at h with hpre
  obtain ⟨rest, rfl⟩ := List.isPrefixOf_iff_prefix.mp hpre
  rw [List.drop_left] at h
  exact ⟨word, by rw [Option.some.inj h], calm_plain hword⟩

/-! ### Strings -/

theorem emit_some {c : Cp} {o : Option (Str × Str)} {p : Str × Str} (h : emit c o = some p) :
    ∃ q, o = some q ∧ q.2 = p.2 := by
  obtain ⟨q, hq, rfl⟩ := Option.map_eq_some_iff.mp h
  exact ⟨q, hq, rfl⟩

theorem emit_emit_some {c d : Cp} {o : Option (Str × Str)} {p : Str × Str}
    (h : emit c (emit d o) = some p) : ∃ q, o = some q ∧ q.2 = p.2 := by
  obtain ⟨q, hq, hqp⟩ := emit_some h
  obtain ⟨q', hq', hqq⟩ := emit_some hq
  exact ⟨q', hq', hqq.trans hqp⟩

theorem hexVal_newline : hexVal (cp '\n') = none := by decide

theorem unescape_newline : unescape (cp '\n') = none := by decide

/-- A step of the string scanner is never over a line break. -/
theorem scanStr_step {st : StrState} {c : Cp} {rest : Str} {p : Str × Str}
    (h : scanStr st (c :: rest) = some p) :
    c ≠ cp '\n' ∧ (rest = p.2 ∨ ∃ st' q, scanStr st' rest = some q ∧ q.2 = p.2) := by
  have hcontrol (hc : ¬ c.val < 32) : c ≠ cp '\n' := by
    rintro rfl
    exact hc (by decide)
  cases st with
  | plain =>
    rw [scanStr_plain_cons] at h
    split_ifs at h with hq hb hc
    · rw [← Option.some.inj h, hq]
      exact ⟨by decide, .inl rfl⟩
    · exact ⟨hb ▸ by decide, .inr ⟨_, p, h, rfl⟩⟩
    · exact ⟨hcontrol hc, .inr ⟨_, emit_some h⟩⟩
  | esc =>
    rw [scanStr_esc_cons] at h
    split_ifs at h with hu
    · exact ⟨hu ▸ by decide, .inr ⟨_, p, h, rfl⟩⟩
    · obtain ⟨e, he, h⟩ := Option.bind_eq_some_iff.mp h
      refine ⟨?_, .inr ⟨_, emit_some h⟩⟩
      rintro rfl
      rw [unescape_newline] at he
      exact absurd he (by simp)
  | hex left n =>
    rw [scanStr_hex_cons] at h
    obtain ⟨d, hd, h⟩ := Option.bind_eq_some_iff.mp h
    refine ⟨?_, ?_⟩
    · rintro rfl
      rw [hexVal_newline] at hd
      exact absurd hd (by simp)
    · split_ifs at h
      · exact .inr ⟨_, p, h, rfl⟩
      · exact .inr ⟨_, p, h, rfl⟩
      · exact .inr ⟨_, emit_some h⟩
  | high hi =>
    rw [scanStr_high_cons] at h
    split_ifs at h with hq hb hc
    · rw [← Option.some.inj h, hq]
      exact ⟨by decide, .inl rfl⟩
    · exact ⟨hb ▸ by decide, .inr ⟨_, p, h, rfl⟩⟩
    · exact ⟨hcontrol hc, .inr ⟨_, emit_emit_some h⟩⟩
  | highEsc hi =>
    rw [scanStr_highEsc_cons] at h
    split_ifs at h with hu
    · exact ⟨hu ▸ by decide, .inr ⟨_, p, h, rfl⟩⟩
    · obtain ⟨e, he, h⟩ := Option.bind_eq_some_iff.mp h
      refine ⟨?_, .inr ⟨_, emit_emit_some h⟩⟩
      rintro rfl
      rw [unescape_newline] at he
      exact absurd he (by simp)
  | highHex hi left n =>
    rw [scanStr_highHex_cons] at h
    obtain ⟨d, hd, h⟩ := Option.bind_eq_some_iff.mp h
    refine ⟨?_, ?_⟩
    · rintro rfl
      rw [hexVal_newline] at hd
      exact absurd hd (by simp)
    · split_ifs at h
      · exact .inr ⟨_, p, h, rfl⟩
      · exact .inr ⟨_, emit_some h⟩
      · exact .inr ⟨_, emit_some h⟩
      · exact .inr ⟨_, emit_emit_some h⟩

theorem scanStr_split {st : StrState} {s : Str} {p : Str × Str} (h : scanStr st s = some p) :
    ∃ w, s = w ++ p.2 ∧ cp '\n' ∉ w := by
  induction s generalizing st p with
  | nil => cases st <;> simp [scanStr] at h
  | cons c rest ih =>
    obtain ⟨hc, hrest⟩ := scanStr_step h
    rcases hrest with rfl | ⟨st', q, hq, hqp⟩
    · exact ⟨[c], rfl, by simpa using Ne.symm hc⟩
    · obtain ⟨w, hw, hn⟩ := ih hq
      refine ⟨c :: w, by rw [hw, hqp]; rfl, ?_⟩
      simpa [hn] using Ne.symm hc

theorem reads_scanStr {s : Str} {p : Str × Str} (h : scanStr .plain s = some p) :
    Reads (cp '"' :: s) p.2 := by
  obtain ⟨w, hw, hn⟩ := scanStr_split h
  exact ⟨cp '"' :: w, by rw [hw]; rfl, calm_string hn⟩

/-! ### Numbers and words -/

theorem reads_digits (s : Str) : Reads s (s.dropWhile isDigit) := by
  refine ⟨s.takeWhile isDigit, (List.takeWhile_append_dropWhile).symm, calm_plain fun h => ?_⟩
  exact absurd (List.mem_takeWhile_imp h) (by decide)

theorem reads_integral (s : Str) : Reads s (integral s).2 := by
  cases s with
  | nil => exact .refl []
  | cons c s =>
    unfold integral
    dsimp only
    split_ifs with hc
    · exact hc ▸ .char (by decide) s
    · exact reads_digits _

theorem reads_fraction (s : Str) : Reads s (fraction s).2 := by
  cases s with
  | nil => exact .refl []
  | cons c s =>
    unfold fraction
    dsimp only
    split_ifs with hc
    · exact (Reads.char (hc.1 ▸ by decide) s).trans (reads_digits s)
    · exact .refl _

theorem reads_sign (p : Cp → Bool) (hp : p (cp '`') = false) (s : Str) :
    Reads s (s.drop ((s.take 1).filter p).length) := by
  cases s with
  | nil => exact .refl []
  | cons c s =>
    by_cases hc : p c = true
    · have hne : c ≠ cp '`' := by
        rintro rfl
        rw [hp] at hc
        exact absurd hc (by simp)
      simpa [hc] using Reads.char hne s
    · simpa [hc] using Reads.refl (c :: s)

theorem reads_exponent (s : Str) : Reads s (exponent s).2 := by
  cases s with
  | nil => exact .refl []
  | cons c s =>
    unfold exponent
    dsimp only
    split_ifs with hc hds
    · have hne : c ≠ cp '`' := by
        rintro rfl
        exact absurd hc (by decide)
      exact (Reads.char hne s).trans ((reads_sign _ (by decide) s).trans (reads_digits _))
    · exact .refl _
    · exact .refl _

section
variable [Host]

theorem reads_scanNumber {s : Str} {r : Json × Str} (h : scanNumber s = .ok r) : Reads s r.2 := by
  have hall := (((reads_sign (· == cp '-') (by decide) s).trans (reads_integral _)).trans
    (reads_fraction _)).trans (reads_exponent _)
  unfold scanNumber at h
  dsimp only at h
  split_ifs at h <;> · rw [← Except.ok.inj h]; exact hall

omit [Host] in
theorem reads_scanWord {s : Str} {r : Json × Str} (h : scanWord s = some r) : Reads s r.2 := by
  obtain ⟨w, hw, h⟩ := List.exists_of_findSome?_eq_some h
  obtain ⟨rest, hrest, rfl⟩ := Option.map_eq_some_iff.mp h
  have hplain : ∀ w ∈ WORDS.map Prod.fst, cp '`' ∉ w := by decide
  exact reads_past (hplain w.1 (List.mem_map_of_mem hw)) hrest

omit [Host] in
theorem reads_scanKey {s : Str} {p : Str × Str} (h : scanKey s = some p) : Reads s p.2 := by
  cases s with
  | nil => simp [scanKey] at h
  | cons c s =>
    unfold scanKey at h
    dsimp only at h
    split_ifs at h with hc
    obtain ⟨q, hq, h⟩ := Option.bind_eq_some_iff.mp h
    obtain ⟨r, hr, rfl⟩ := Option.map_eq_some_iff.mp h
    have hstr := reads_scanStr hq
    rw [← hc] at hstr
    exact ((hstr.trans (reads_skipWs _)).trans (reads_past (by decide) hr)).trans (reads_skipWs r)

/-! ### Values -/

omit [Host] in
/-- A punctuation mark after whitespace. -/
theorem reads_mark {c : Cp} (hc : c ≠ cp '`') {s r : Str} (h : past [c] (skipWs s) = some r) :
    Reads s r :=
  (reads_skipWs s).trans (reads_past (by simpa using Ne.symm hc) h)

/-- The three scanners with the same fuel. -/
structure ScanReads (fuel : ℕ) : Prop where
  once : ∀ room s r, scanOnce fuel room s = .ok r → Reads s r.2
  members : ∀ room acc s r, scanMembers fuel room acc s = .ok r → Reads s r.2
  elements : ∀ room acc s r, scanElements fuel room acc s = .ok r → Reads s r.2

theorem scanOnce_reads {fuel : ℕ} (ih : ScanReads fuel) (room : ℕ) (s : Str) (r : Json × Str)
    (h : scanOnce (fuel + 1) room s = .ok r) : Reads s r.2 := by
  rw [scanOnce.eq_def] at h
  cases s with
  | nil => exact absurd h (by simp)
  | cons c rest =>
    dsimp only at h
    split_ifs at h with hq ho ha
    · cases hs : scanStr .plain rest with
      | none => rw [hs] at h; exact absurd h (by simp)
      | some p =>
        rw [hs] at h
        rw [← Except.ok.inj h, hq]
        exact reads_scanStr hs
    · cases room with
      | zero => exact absurd h (by simp)
      | succ room =>
        have hopen : Reads (c :: rest) rest := .char (ho ▸ by decide) rest
        cases hp : past [cp '}'] (skipWs rest) with
        | some rest' =>
          simp only [hp] at h
          rw [← Except.ok.inj h]
          exact hopen.trans (reads_mark (by decide) hp)
        | none =>
          simp only [hp] at h
          exact (hopen.trans (reads_skipWs rest)).trans (ih.members _ _ _ _ h)
    · cases room with
      | zero => exact absurd h (by simp)
      | succ room =>
        have hopen : Reads (c :: rest) rest := .char (ha ▸ by decide) rest
        cases hp : past [cp ']'] (skipWs rest) with
        | some rest' =>
          simp only [hp] at h
          rw [← Except.ok.inj h]
          exact hopen.trans (reads_mark (by decide) hp)
        | none =>
          simp only [hp] at h
          exact (hopen.trans (reads_skipWs rest)).trans (ih.elements _ _ _ _ h)
    · cases hw : scanWord (c :: rest) with
      | some r' =>
        rw [hw] at h
        rw [← Except.ok.inj h]
        exact reads_scanWord hw
      | none =>
        rw [hw] at h
        exact reads_scanNumber h

theorem scanMembers_reads {fuel : ℕ} (ih : ScanReads fuel) (room : ℕ) (acc : Dict) (s : Str)
    (r : Json × Str) (h : scanMembers (fuel + 1) room acc s = .ok r) : Reads s r.2 := by
  rw [scanMembers] at h
  cases hk : scanKey s with
  | none => rw [hk] at h; exact absurd h (by simp)
  | some q =>
    obtain ⟨key, s₁⟩ := q
    rw [hk] at h
    cases hv : scanOnce fuel room s₁ with
    | error e => simp only [hv] at h; exact absurd h (by simp)
    | ok q =>
      obtain ⟨v, s₂⟩ := q
      have hread : Reads s s₂ := (reads_scanKey hk).trans (ih.once _ _ _ hv)
      simp only [hv] at h
      cases hp : past [cp '}'] (skipWs s₂) with
      | some rest =>
        simp only [hp] at h
        rw [← Except.ok.inj h]
        exact hread.trans (reads_mark (by decide) hp)
      | none =>
        simp only [hp] at h
        cases hc : past [cp ','] (skipWs s₂) with
        | none => simp only [hc] at h; exact absurd h (by simp)
        | some rest =>
          simp only [hc] at h
          have hnext := ih.members _ _ _ _ h
          exact ((hread.trans (reads_mark (by decide) hc)).trans (reads_skipWs rest)).trans hnext

theorem scanElements_reads {fuel : ℕ} (ih : ScanReads fuel) (room : ℕ) (acc : List Json) (s : Str)
    (r : Json × Str) (h : scanElements (fuel + 1) room acc s = .ok r) : Reads s r.2 := by
  rw [scanElements] at h
  cases hv : scanOnce fuel room s with
  | error e => simp only [hv] at h; exact absurd h (by simp)
  | ok q =>
    obtain ⟨v, s₁⟩ := q
    have hread : Reads s s₁ := ih.once _ _ _ hv
    simp only [hv] at h
    cases hp : past [cp ']'] (skipWs s₁) with
    | some rest =>
      simp only [hp] at h
      rw [← Except.ok.inj h]
      exact hread.trans (reads_mark (by decide) hp)
    | none =>
      simp only [hp] at h
      cases hc : past [cp ','] (skipWs s₁) with
      | none => simp only [hc] at h; exact absurd h (by simp)
      | some rest =>
        simp only [hc] at h
        have hnext := ih.elements _ _ _ _ h
        exact ((hread.trans (reads_mark (by decide) hc)).trans (reads_skipWs rest)).trans hnext

theorem scan_reads (fuel : ℕ) : ScanReads fuel := by
  induction fuel with
  | zero => constructor <;> intros <;> simp_all [scanOnce, scanMembers, scanElements]
  | succ fuel ih => exact ⟨scanOnce_reads ih, scanMembers_reads ih, scanElements_reads ih⟩

/-- No line of a JSON text starts with a backtick. -/
theorem calm_of_loads {s : Str} {v : Json} (h : loads s = .ok v) : Calm s := by
  unfold loads at h
  split_ifs at h
  cases hs : scanOnce (2 * s.length + 2) Host.nestLimit (skipWs s) with
  | error e => rw [hs] at h; exact absurd h (by simp)
  | ok r =>
    obtain ⟨v', rest⟩ := r
    simp only [hs] at h
    split_ifs at h with hend
    obtain ⟨w, hw, hcalm⟩ := ((reads_skipWs s).trans ((scan_reads _).once _ _ _ hs)).trans
      (reads_skipWs rest)
    rw [hend, List.append_nil] at hw
    exact hw ▸ hcalm

end

/-! ### The block of a body -/

theorem closing_calm {s : Str} (hs : calm true s = true) (hlined : Lined s) (hne : s ≠ [])
    (t : Str) : closing (s ++ t) = none := by
  rw [closing_append (hlined.mem hne), Option.map_eq_none_iff, closing, if_neg]
  intro hpre
  obtain ⟨rest, hrest⟩ := List.isPrefixOf_iff_prefix.mp hpre
  have hblank : calm true (s.dropWhile isBlank) = true := by
    clear hpre hrest hlined hne
    induction s with
    | nil => rfl
    | cons c s ih =>
      by_cases hc : isBlank c = true
      · rw [List.dropWhile_cons_of_pos hc]
        rw [calm_cons, Bool.and_eq_true, hc, Bool.and_true, Bool.or_true] at hs
        exact ih hs.2
      · rwa [List.dropWhile_cons_of_neg hc]
  rw [← hrest] at hblank
  exact absurd hblank (by simp [TICKS, txt, calm])

/-- The closing ticks of a JSON body are the ones put behind it. -/
theorem bodyFrom_calm {s : Str} (hlined : Lined s) {start : Bool} (hstart : start = true ∨ s ≠ [])
    (hs : calm start s = true) (t : Str) : bodyFrom start (s ++ (TICKS ++ t)) = some (s, t) := by
  have hnone : bodyFrom start s = none := by
    clear hstart
    induction s generalizing start with
    | nil => cases start <;> rfl
    | cons c s ih =>
      have hclosing : (if start then closing (c :: s) else none) = none := by
        split_ifs with hst
        · have h := closing_calm (hst ▸ hs) hlined (List.cons_ne_nil c s) []
          rwa [List.append_nil] at h
        · rfl
      rw [bodyFrom, hclosing]
      rw [calm_cons, Bool.and_eq_true] at hs
      have hweak : calm (c == cp '\n') s = true := by
        cases hc : (c == cp '\n') with
        | true => rw [hc] at hs; exact hs.2
        | false =>
          rw [hc, Bool.false_or] at hs
          cases hfresh : (start && isBlank c) with
          | true => rw [hfresh] at hs; exact calm_weaken hs.2 false
          | false => rw [hfresh] at hs; exact hs.2
      rw [ih (hlined.suffix (List.suffix_cons c s)) hweak]
      rfl
  rw [bodyFrom_append hlined start hstart, hnone]
  rfl

end AskFable.Extract

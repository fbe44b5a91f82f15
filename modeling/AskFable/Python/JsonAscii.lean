import AskFable.Python.JsonPlain
import Mathlib.Algebra.GroupWithZero.Nat

/-!
# Writing strings as ASCII JSON

`json.dumps` with its default `ensure_ascii=True` writes the UTF-16 code units of a string. Its
text tells two strings apart exactly as far as their code units do: a character beyond the basic
plane is written like its two surrogates.
-/
namespace AskFable.Python.JsonText
open AskFable.Text AskFable.Python

/-- The UTF-16 code units of a character. -/
def unitsOf (c : Cp) : List ℕ :=
  if c.val < 0x10000 then [c.val]
  else [0xD800 + (c.val - 0x10000) / 0x400, 0xDC00 + (c.val - 0x10000) % 0x400]

def units (s : Str) : List ℕ := s.flatMap unitsOf

def hex4 (n : ℕ) : Str :=
  [hexDigit (n / 4096), hexDigit (n / 256 % 16), hexDigit (n / 16 % 16), hexDigit (n % 16)]

def escapeUnit (n : ℕ) : Str :=
  if n = 34 then txt "\\\""
  else if n = 92 then txt "\\\\"
  else if n = 8 then txt "\\b"
  else if n = 12 then txt "\\f"
  else if n = 10 then txt "\\n"
  else if n = 13 then txt "\\r"
  else if n = 9 then txt "\\t"
  else if n < 32 ∨ 126 < n then txt "\\u" ++ hex4 n
  else [Fin.ofNat _ n]

/-- A string as `json.dumps` writes it. -/
def dumpAscii (s : Str) : Str := cp '"' :: (units s).flatMap escapeUnit ++ [cp '"']

@[simp] theorem units_nil : units [] = [] := rfl

@[simp] theorem units_cons (c : Cp) (s : Str) : units (c :: s) = unitsOf c ++ units s := rfl

@[simp] theorem units_append (s t : Str) : units (s ++ t) = units s ++ units t :=
  List.flatMap_append

theorem unitsOf_lt {c : Cp} {n : ℕ} (h : n ∈ unitsOf c) : n < 0x10000 := by
  have hc := c.isLt
  unfold unitsOf at h
  split_ifs at h with hsmall
  · rw [List.mem_singleton.mp h]
    exact hsmall
  · simp only [List.mem_cons, List.not_mem_nil, or_false] at h
    omega

theorem units_lt {s : Str} : ∀ n ∈ units s, n < 0x10000 := fun n h => by
  obtain ⟨c, -, hn⟩ := List.mem_flatMap.mp h
  exact unitsOf_lt hn

/-- No two halves of a character stand side by side, as in all that a JSON reader returns. -/
def Whole (s : Str) : Prop :=
  s.IsChain fun c d => ¬(isHigh c.val = true ∧ 0xDC00 ≤ d.val ∧ d.val < 0xE000)

theorem units_small {c : Cp} (h : c.val < 0x10000) (s : Str) : units (c :: s) = c.val :: units s := by
  rw [units_cons, unitsOf, if_pos h]
  rfl

theorem units_large {c : Cp} (h : ¬c.val < 0x10000) (s : Str) :
    units (c :: s) = (0xD800 + (c.val - 0x10000) / 0x400) ::
      (0xDC00 + (c.val - 0x10000) % 0x400) :: units s := by
  rw [units_cons, unitsOf, if_neg h]
  rfl

/-- A low surrogate among the units of a whole string ends a character. -/
theorem units_ne_of_high {c : Cp} {s : Str} (hs : Whole (c :: s)) (hc : isHigh c.val = true) {n : ℕ}
    {us : List ℕ} (hlow : 0xDC00 ≤ n) (hn : n < 0xE000) : units s ≠ n :: us := by
  intro h
  cases s with
  | nil => nomatch h
  | cons d s =>
    by_cases hd : d.val < 0x10000
    · rw [units_small hd] at h
      obtain ⟨rfl, -⟩ := List.cons.inj h
      exact (List.isChain_cons_cons.mp hs).1 ⟨hc, hlow, hn⟩
    · have hmax := d.isLt
      rw [units_large hd] at h
      have := (List.cons.inj h).1
      omega

theorem isHigh_lead (c : Cp) (h : ¬c.val < 0x10000) :
    isHigh (0xD800 + (c.val - 0x10000) / 0x400) = true := by
  have hc := c.isLt
  simp only [isHigh, Bool.and_eq_true, decide_eq_true_eq]
  omega

/-- Whole strings are told apart by their code units. -/
theorem units_inj_of_whole {s t : Str} (hs : Whole s) (ht : Whole t) (h : units s = units t) :
    s = t := by
  induction s generalizing t with
  | nil =>
    cases t with
    | nil => rfl
    | cons d t =>
      by_cases hd : d.val < 0x10000
      · rw [units_small hd] at h
        nomatch h
      · rw [units_large hd] at h
        nomatch h
  | cons c s ih =>
    cases t with
    | nil =>
      by_cases hc : c.val < 0x10000
      · rw [units_small hc] at h
        nomatch h
      · rw [units_large hc] at h
        nomatch h
    | cons d t =>
      have hc := c.isLt
      have hd := d.isLt
      by_cases hcs : c.val < 0x10000 <;> by_cases hds : d.val < 0x10000
      · rw [units_small hcs, units_small hds] at h
        obtain ⟨hcd, hst⟩ := List.cons.inj h
        rw [Fin.ext hcd, ih hs.of_cons ht.of_cons hst]
      · rw [units_small hcs, units_large hds] at h
        obtain ⟨hcd, hst⟩ := List.cons.inj h
        exact absurd hst (units_ne_of_high hs (hcd ▸ isHigh_lead d hds) (by omega) (by omega))
      · rw [units_large hcs, units_small hds] at h
        obtain ⟨hcd, hst⟩ := List.cons.inj h
        exact absurd hst.symm (units_ne_of_high ht (hcd ▸ isHigh_lead c hcs) (by omega) (by omega))
      · rw [units_large hcs, units_large hds] at h
        obtain ⟨hlead, hrest⟩ := List.cons.inj h
        obtain ⟨htrail, hst⟩ := List.cons.inj hrest
        rw [Fin.ext (by omega : c.val = d.val), ih hs.of_cons ht.of_cons hst]

theorem map_units_inj {ss ts : List Str} (hss : ∀ s ∈ ss, Whole s) (hts : ∀ t ∈ ts, Whole t)
    (h : ss.map units = ts.map units) : ss = ts := by
  induction ss generalizing ts with
  | nil => exact (List.map_eq_nil_iff.mp h.symm).symm
  | cons s ss ih =>
    cases ts with
    | nil => nomatch h
    | cons t ts =>
      obtain ⟨hs, hss⟩ := List.forall_mem_cons.mp hss
      obtain ⟨ht, hts⟩ := List.forall_mem_cons.mp hts
      obtain ⟨hst, hrest⟩ := List.cons.inj h
      rw [units_inj_of_whole hs ht hst, ih hss hts hrest]

/-! ### Reading a code unit back -/

def readUnit : Str → Option (ℕ × Str)
  | [] => none
  | c :: rest =>
    if c ≠ cp '\\' then some (c.val, rest)
    else
      match rest with
      | [] => none
      | e :: rest =>
        if e ≠ cp 'u' then (unescape e).map fun x => (x.val, rest)
        else
          match rest with
          | x :: y :: z :: w :: rest =>
            (hexVal x).bind fun x => (hexVal y).bind fun y => (hexVal z).bind fun z =>
              (hexVal w).map fun w => (((x * 16 + y) * 16 + z) * 16 + w, rest)
          | _ => none

theorem readUnit_hex4 {n : ℕ} (h : n < 0x10000) (rest : Str) :
    readUnit (txt "\\u" ++ hex4 n ++ rest) = some (n, rest) := by
  have htext : txt "\\u" ++ hex4 n ++ rest = cp '\\' :: cp 'u' :: hexDigit (n / 4096) ::
      hexDigit (n / 256 % 16) :: hexDigit (n / 16 % 16) :: hexDigit (n % 16) :: rest := rfl
  have hsum : ((n / 4096 * 16 + n / 256 % 16) * 16 + n / 16 % 16) * 16 + n % 16 = n := by omega
  rw [htext, readUnit, if_neg (by decide), if_neg (by decide), hexVal_hexDigit _ (by omega), hexVal_hexDigit _ (by omega),
    hexVal_hexDigit _ (by omega), hexVal_hexDigit _ (by omega)]
  simp only [Option.bind_some, Option.map_some, hsum]

theorem readUnit_escapeUnit {n : ℕ} (h : n < 0x10000) (rest : Str) :
    readUnit (escapeUnit n ++ rest) = some (n, rest) := by
  unfold escapeUnit
  split_ifs with h1 h2 h3 h4 h5 h6 h7 h8
  · rw [h1]; rfl
  · rw [h2]; rfl
  · rw [h3]; rfl
  · rw [h4]; rfl
  · rw [h5]; rfl
  · rw [h6]; rfl
  · rw [h7]; rfl
  · exact readUnit_hex4 h rest
  · have hval : (Fin.ofNat 0x110000 n).val = n := Nat.mod_eq_of_lt (by omega)
    have hne : (Fin.ofNat 0x110000 n) ≠ cp '\\' := fun heq => h2 (hval ▸ heq ▸ rfl)
    rw [List.singleton_append, readUnit.eq_def]
    simp only [hne, ne_eq, not_false_eq_true, if_true, hval]

/-- An escaped code unit does not close the string. -/
theorem escapeUnit_head {n : ℕ} (h : n < 0x10000) :
    ∃ c r, escapeUnit n = c :: r ∧ c ≠ cp '"' := by
  unfold escapeUnit
  split_ifs with h1 h2 h3 h4 h5 h6 h7 h8
  all_goals try exact ⟨_, _, rfl, by decide⟩
  have hval : (Fin.ofNat 0x110000 n).val = n := Nat.mod_eq_of_lt (by omega)
  exact ⟨_, _, rfl, fun heq => h1 (hval ▸ heq ▸ rfl)⟩

theorem escapeUnits_inj {us vs : List ℕ} (hus : ∀ n ∈ us, n < 0x10000)
    (hvs : ∀ n ∈ vs, n < 0x10000) {x y : Str}
    (h : us.flatMap escapeUnit ++ cp '"' :: x = vs.flatMap escapeUnit ++ cp '"' :: y) :
    us = vs ∧ x = y := by
  induction us generalizing vs with
  | nil =>
    cases vs with
    | nil => exact ⟨rfl, (List.cons.inj h).2⟩
    | cons v vs =>
      obtain ⟨c, r, hhead, hc⟩ := escapeUnit_head (hvs v List.mem_cons_self)
      rw [List.flatMap_cons, hhead] at h
      exact absurd (List.cons.inj h).1.symm hc
  | cons u us ih =>
    have hu := hus u List.mem_cons_self
    cases vs with
    | nil =>
      obtain ⟨c, r, hhead, hc⟩ := escapeUnit_head hu
      rw [List.flatMap_cons, hhead] at h
      exact absurd (List.cons.inj h).1 hc
    | cons v vs =>
      have hread := congrArg readUnit h
      simp only [List.flatMap_cons, List.append_assoc] at hread
      rw [readUnit_escapeUnit hu, readUnit_escapeUnit (hvs v List.mem_cons_self)] at hread
      obtain ⟨rfl, hrest⟩ := Prod.mk.inj (Option.some.inj hread)
      obtain ⟨rfl, hxy⟩ := ih (fun n hn => hus n (List.mem_cons_of_mem u hn))
        (fun n hn => hvs n (List.mem_cons_of_mem u hn)) hrest
      exact ⟨rfl, hxy⟩

/-- A written string ends by itself, and tells its code units. -/
theorem dumpAscii_append {s t x y : Str} (h : dumpAscii s ++ x = dumpAscii t ++ y) :
    units s = units t ∧ x = y := by
  simp only [dumpAscii, List.cons_append, List.append_assoc, List.nil_append] at h
  exact escapeUnits_inj units_lt units_lt (List.cons.inj h).2

theorem dumpAscii_congr {s t : Str} (h : units s = units t) : dumpAscii s = dumpAscii t := by
  rw [dumpAscii, dumpAscii, h]

/-- The strings of a written array. -/
theorem spaced_append {ss ts : List Str} {x y : Str}
    (h : spaced (ss.map dumpAscii) ++ cp ']' :: x = spaced (ts.map dumpAscii) ++ cp ']' :: y) :
    ss.map units = ts.map units ∧ x = y := by
  have hopen (s : Str) (ss : List Str) (r : Str) :
      ∃ u, spaced ((s :: ss).map dumpAscii) ++ r = cp '"' :: u := by
    cases ss with
    | nil => exact ⟨_, rfl⟩
    | cons s' ss => exact ⟨_, rfl⟩
  induction ss generalizing ts with
  | nil =>
    cases ts with
    | nil => exact ⟨rfl, (List.cons.inj h).2⟩
    | cons t ts =>
      obtain ⟨u, hu⟩ := hopen t ts (cp ']' :: y)
      exact absurd (List.cons.inj (h.trans hu)).1 (by decide)
  | cons s ss ih =>
    cases ts with
    | nil =>
      obtain ⟨u, hu⟩ := hopen s ss (cp ']' :: x)
      exact absurd (List.cons.inj (h.symm.trans hu)).1 (by decide)
    | cons t ts =>
      rw [List.map_cons, List.map_cons]
      cases ss with
      | nil =>
        cases ts with
        | nil =>
          obtain ⟨hst, hrest⟩ := dumpAscii_append h
          exact ⟨by rw [hst], (List.cons.inj hrest).2⟩
        | cons t' ts =>
          simp only [List.map_cons, List.map_nil, spaced, List.append_assoc] at h
          exact absurd (List.cons.inj (dumpAscii_append h).2).1 (by decide)
      | cons s' ss =>
        cases ts with
        | nil =>
          simp only [List.map_cons, List.map_nil, spaced, List.append_assoc] at h
          exact absurd (List.cons.inj (dumpAscii_append h).2).1 (by decide)
        | cons t' ts =>
          simp only [List.map_cons, spaced, List.append_assoc] at h
          obtain ⟨hst, hrest⟩ := dumpAscii_append h
          have hbehind : spaced ((s' :: ss).map dumpAscii) ++ cp ']' :: x =
            spaced ((t' :: ts).map dumpAscii) ++ cp ']' :: y := List.append_cancel_left hrest
          obtain ⟨htail, hxy⟩ := ih hbehind
          exact ⟨by rw [hst, htail], hxy⟩

theorem map_dumpAscii_congr {ss ts : List Str} (h : ss.map units = ts.map units) :
    ss.map dumpAscii = ts.map dumpAscii := by
  have hwrite : dumpAscii = (fun us => cp '"' :: us.flatMap escapeUnit ++ [cp '"']) ∘ units := rfl
  rw [hwrite, ← List.map_map, ← List.map_map, h]

theorem units_ascii {s : Str} (hs : ∀ c ∈ s, c.val < 128) : units s = s.map Fin.val := by
  induction s with
  | nil => rfl
  | cons c s ih =>
    have hc := hs c List.mem_cons_self
    rw [units_cons, unitsOf, if_pos (by omega), ih fun d hd => hs d (List.mem_cons_of_mem c hd)]
    rfl

/-! ### How long the text is -/

/-- What a code unit takes: itself, a short escape, or `\uXXXX`. -/
def unitSize (n : ℕ) : ℕ :=
  if n ∈ [34, 92, 8, 12, 10, 13, 9] then 2 else if n < 32 ∨ 126 < n then 6 else 1

/-- What a string takes, with its quotes. -/
def textSize (s : Str) : ℕ := ((units s).map unitSize).sum + 2

theorem length_escapeUnit (n : ℕ) : (escapeUnit n).length = unitSize n := by
  unfold escapeUnit unitSize
  split_ifs <;> simp_all [txt, hex4]

theorem length_dumpAscii (s : Str) : (dumpAscii s).length = textSize s := by
  have hunits : (fun n => (escapeUnit n).length) = unitSize := funext length_escapeUnit
  rw [dumpAscii, List.cons_append, List.length_cons, List.length_append, List.length_flatMap,
    hunits]
  rfl

theorem unitSize_pos (n : ℕ) : 1 ≤ unitSize n := by
  unfold unitSize
  split_ifs <;> omega

theorem length_le_textSize (s : Str) : s.length + 2 ≤ textSize s := by
  have hsum : s.length ≤ ((units s).map unitSize).sum := by
    induction s with
    | nil => exact Nat.zero_le _
    | cons c s ih =>
      have hc : 1 ≤ ((unitsOf c).map unitSize).sum := by
        unfold unitsOf
        split_ifs with hsmall
        · simpa using unitSize_pos c.val
        · rw [List.map_cons, List.sum_cons]
          exact (unitSize_pos _).trans (Nat.le_add_right _ _)
      rw [units_cons, List.map_append, List.sum_append, List.length_cons]
      omega
  exact Nat.add_le_add_right hsum 2

/-- A string that is written as it stands. -/
def Plain (s : Str) : Prop := ∀ c ∈ s, c.val < 128 ∧ unitSize c.val = 1

theorem textSize_plain {s : Str} (h : Plain s) : textSize s = s.length + 2 := by
  have hone : s.map (unitSize ∘ Fin.val) = s.map fun _ => 1 :=
    List.map_congr_left fun c hc => (h c hc).2
  rw [textSize, units_ascii fun c hc => (h c hc).1, List.map_map, hone]
  simp

end AskFable.Python.JsonText

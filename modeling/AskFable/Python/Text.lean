import Mathlib.Algebra.GroupWithZero.Nat
import Mathlib.Data.List.Infix
import Mathlib.Data.List.DropRight
import Mathlib.Tactic.Cases

/-!
# Python strings

A Python `str` is a list of code points. Lone surrogates are code points like any
other, so the type is wider than a list of Lean characters. Only the operations
that are exact on every code point live here; what depends on a Unicode table is
left to `Host`.
-/
namespace AskFable.Text

/-- A Unicode code point, surrogates included. -/
abbrev Cp := Fin 0x110000

abbrev Str := List Cp

instance Cp.neZero : NeZero 0x110000 := ⟨by decide⟩

instance : LawfulBEq Cp := instLawfulBEq

instance : LawfulBEq Str := List.instLawfulBEq

def cp (c : Char) : Cp := Fin.ofNat 0x110000 c.toNat

/-- A string literal of the source. -/
def txt (s : String) : Str := s.toList.map cp

/-- `str.isspace` on one code point; also what `\s` matches. -/
def isSpace (c : Cp) : Bool :=
  let n := c.val
  (9 ≤ n && n ≤ 13) || (28 ≤ n && n ≤ 32) || n == 0x85 || n == 0xA0 || n == 0x1680 ||
    (0x2000 ≤ n && n ≤ 0x200A) || n == 0x2028 || n == 0x2029 || n == 0x202F ||
    n == 0x205F || n == 0x3000

def isSurrogate (c : Cp) : Bool := 0xD800 ≤ c.val && c.val ≤ 0xDFFF

def isDigit (c : Cp) : Bool := 48 ≤ c.val && c.val ≤ 57

def isUpper (c : Cp) : Bool := 65 ≤ c.val && c.val ≤ 90

def isLower (c : Cp) : Bool := 97 ≤ c.val && c.val ≤ 122

/-- `[A-Za-z0-9]`. -/
def isAlnum (c : Cp) : Bool := isDigit c || isUpper c || isLower c

/-- `str.lower` on ASCII letters; the source only lowers ASCII text. -/
def lowerAscii (c : Cp) : Cp := if isUpper c then Fin.ofNat _ (c.val + 32) else c

/-- `str.strip` removes leading and trailing whitespace. -/
def strip (s : Str) : Str := (s.dropWhile isSpace).rdropWhile isSpace

/-- `needle in hay`. -/
def contains (hay needle : Str) : Bool := decide (needle <:+: hay)

@[simp] theorem contains_iff (hay needle : Str) :
    contains hay needle = true ↔ needle <:+: hay := by simp [contains]

/-- Decimal digits of a natural number. -/
def natStr (n : ℕ) : Str := (Nat.toDigits 10 n).map cp

def intStr : ℤ → Str
  | .ofNat n => natStr n
  | .negSucc n => cp '-' :: natStr (n + 1)

/-- A line boundary of `str.splitlines`. -/
def isBreak (c : Cp) : Bool :=
  let n := c.val
  (10 ≤ n && n ≤ 13) || (28 ≤ n && n ≤ 30) || n == 0x85 || n == 0x2028 || n == 0x2029

/-- The lines of a text, with the line being read, reversed; `cr` says that the code point
before was a carriage return, which a line feed extends. -/
def linesFrom : (cr : Bool) → Str → Str → List Str
  | _, line, [] => if line = [] then [] else [line.reverse]
  | cr, line, c :: rest =>
    if cr = true ∧ c = cp '\n' then linesFrom false line rest
    else if isBreak c then line.reverse :: linesFrom (c == cp '\r') [] rest
    else linesFrom false (c :: line) rest

/-- `str.splitlines`. -/
def splitlines (s : Str) : List Str := linesFrom false [] s

theorem char_lt (c : Char) : c.toNat < 0x110000 := by
  have hvalid := c.valid
  unfold UInt32.isValidChar Nat.isValidChar at hvalid
  unfold Char.toNat
  omega

theorem cp_injective : Function.Injective cp := by
  intro c d h
  have hc := char_lt c
  have hd := char_lt d
  have hval := congrArg Fin.val h
  simp only [cp, Fin.ofNat, Nat.mod_eq_of_lt hc, Nat.mod_eq_of_lt hd] at hval
  exact Char.toNat_inj.mp hval

theorem natStr_digits (n : ℕ) : ∀ c ∈ natStr n, isDigit c = true := by
  intro c hc
  obtain ⟨d, hd, rfl⟩ := List.mem_map.mp hc
  have hdigit : d.isDigit = true := Nat.isDigit_of_mem_toDigits (by omega) (by omega) hd
  have hlt := char_lt d
  simp only [Char.isDigit, Bool.and_eq_true, decide_eq_true_eq, ge_iff_le,
    UInt32.le_iff_toNat_le] at hdigit
  have hval : (cp d).val = d.toNat := Nat.mod_eq_of_lt hlt
  simp only [isDigit, hval, Bool.and_eq_true, decide_eq_true_eq]
  exact hdigit

theorem natStr_eq (n : ℕ) :
    natStr n = if n < 10 then [cp n.digitChar] else natStr (n / 10) ++ [cp (n % 10).digitChar] := by
  unfold natStr
  rw [Nat.toDigits_eq_if (by omega)]
  split_ifs
  · rfl
  · rw [List.map_append]
    rfl

theorem digitChar_val {d : ℕ} (h : d < 10) : (cp d.digitChar).val = 48 + d := by
  have hall : ∀ d < 10, (cp d.digitChar).val = 48 + d := by decide
  exact hall d h

theorem natStr_ne_nil (n : ℕ) : natStr n ≠ [] := by
  rw [natStr_eq]
  split_ifs <;> simp

theorem natStr_injective : Function.Injective natStr := by
  intro m n h
  have hdigits := List.map_injective_iff.mpr cp_injective h
  rw [← Nat.ofDigitChars_ten_toDigits (n := m), hdigits, Nat.ofDigitChars_ten_toDigits]

theorem intStr_injective : Function.Injective intStr := by
  have hminus (n : ℕ) (s : Str) : natStr n ≠ cp '-' :: s := fun h => by
    have := natStr_digits n (cp '-') (h ▸ List.mem_cons_self)
    exact absurd this (by decide)
  intro a b h
  cases a with
  | ofNat m =>
    cases b with
    | ofNat n => rw [natStr_injective h]
    | negSucc n => exact absurd h (hminus m _)
  | negSucc m =>
    cases b with
    | ofNat n => exact absurd h.symm (hminus n _)
    | negSucc n =>
      have := natStr_injective (List.cons.inj h).2
      rw [Nat.succ.inj this]

theorem intStr_ascii (z : ℤ) : ∀ c ∈ intStr z, c.val < 128 := by
  have hdigit (n : ℕ) : ∀ c ∈ natStr n, c.val < 128 := fun c hc => by
    have := natStr_digits n c hc
    simp only [isDigit, Bool.and_eq_true, decide_eq_true_eq] at this
    omega
  cases z with
  | ofNat n => exact hdigit n
  | negSucc n =>
    intro c hc
    rcases List.mem_cons.mp hc with rfl | hc
    · decide
    · exact hdigit _ c hc

theorem strip_eq (s : Str) : ∃ a b, s = a ++ strip s ++ b ∧
    (∀ c ∈ a, isSpace c = true) ∧ ∀ c ∈ b, isSpace c = true := by
  refine ⟨s.takeWhile isSpace, (s.dropWhile isSpace).rtakeWhile isSpace, ?_, ?_, ?_⟩
  · rw [strip, List.append_assoc, List.rdropWhile_append_rtakeWhile,
      List.takeWhile_append_dropWhile]
  · exact fun c hc => List.mem_takeWhile_imp hc
  · exact fun c hc => List.mem_rtakeWhile_imp hc

theorem strip_infix (s : Str) : strip s <:+: s := by
  obtain ⟨a, b, h, -, -⟩ := strip_eq s
  exact ⟨a, b, h.symm⟩

theorem dropWhile_of_prefix {p : Cp → Bool} {x y : Str} (h : y <+: x.dropWhile p) :
    y.dropWhile p = y := by
  cases y with
  | nil => rfl
  | cons c y =>
    obtain ⟨z, hz⟩ := h
    have hc : p c = false := by
      have hhead := List.head?_dropWhile_not p x
      rw [← hz] at hhead
      simpa using hhead
    simp [hc]

@[simp] theorem strip_strip (s : Str) : strip (strip s) = strip s := by
  have h : (strip s).dropWhile isSpace = strip s := dropWhile_of_prefix (List.rdropWhile_prefix _ _)
  rw [strip, h, strip, List.rdropWhile_idempotent]

theorem rdropWhile_append_of_forall {p : Cp → Bool} (x : Str) {b : Str} (hb : ∀ c ∈ b, p c = true) :
    (x ++ b).rdropWhile p = x.rdropWhile p := by
  induction b using List.reverseRecOn with
  | nil => simp
  | append_singleton b c ih =>
    rw [← List.append_assoc, List.rdropWhile_concat_pos _ _ _ (hb c (by simp))]
    exact ih fun d hd => hb d (by simp [hd])

theorem strip_append_space (s : Str) {b : Str} (hb : ∀ c ∈ b, isSpace c = true) :
    strip (s ++ b) = strip s := by
  simp only [strip, List.dropWhile_append]
  split_ifs with h
  · have hnil : s.dropWhile isSpace = [] := by simpa using h
    rw [hnil]
    have : b.dropWhile isSpace = [] := by simpa [List.dropWhile_eq_nil_iff] using hb
    rw [this]
  · exact rdropWhile_append_of_forall _ hb

end AskFable.Text

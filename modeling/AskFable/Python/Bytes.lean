import AskFable.Python.Text
import Mathlib.Tactic.Ring

/-!
# Bytes and base64

Big-endian integers of a fixed width, and base64 as `base64.b64decode(…, validate=True)`
reads it: the strict state machine of `binascii`, which consumes a text character by
character and accepts padding only where a group may end.
-/
namespace AskFable.Python
open AskFable.Text

abbrev Byte := Fin 256

abbrev Bytes := List Byte

instance Byte.neZero : NeZero 256 := ⟨by decide⟩

instance : LawfulBEq Byte := instLawfulBEq

namespace Bytes

def byte (n : ℕ) : Byte := Fin.ofNat 256 n

@[simp] theorem byte_val (n : ℕ) : (byte n).val = n % 256 := rfl

/-- `n.to_bytes(w, "big")` of a number that fits. -/
def ofNat : ℕ → ℕ → Bytes
  | 0, _ => []
  | w + 1, n => byte (n / 256 ^ w) :: ofNat w n

/-- `int.from_bytes(b, "big")`. -/
def toNat (bs : Bytes) : ℕ := bs.foldl (fun n b => n * 256 + b.val) 0

@[simp] theorem length_ofNat (w n : ℕ) : (ofNat w n).length = w := by
  induction w with
  | zero => rfl
  | succ w ih => rw [ofNat, List.length_cons, ih]

theorem foldl_ofNat (w n acc : ℕ) :
    (ofNat w n).foldl (fun n b => n * 256 + b.val) acc = acc * 256 ^ w + n % 256 ^ w := by
  induction w generalizing acc with
  | zero => simp [ofNat, Nat.mod_one]
  | succ w ih =>
    have hsplit : n % 256 ^ (w + 1) = n / 256 ^ w % 256 * 256 ^ w + n % 256 ^ w := by
      rw [pow_succ, Nat.mod_mul, Nat.mul_comm, Nat.add_comm]
    rw [ofNat, List.foldl_cons, ih, byte_val, hsplit, pow_succ]
    ring

theorem toNat_ofNat {w n : ℕ} (h : n < 256 ^ w) : toNat (ofNat w n) = n := by
  rw [toNat, foldl_ofNat, Nat.mod_eq_of_lt h]
  omega

theorem toNat_lt (bs : Bytes) : toNat bs < 256 ^ bs.length := by
  have hfold (acc : ℕ) :
      bs.foldl (fun n b => n * 256 + b.val) acc < (acc + 1) * 256 ^ bs.length := by
    induction bs generalizing acc with
    | nil => simp
    | cons b bs ih =>
      have hb := b.isLt
      calc _ < (acc * 256 + b.val + 1) * 256 ^ bs.length := ih _
        _ ≤ ((acc + 1) * 256) * 256 ^ bs.length := Nat.mul_le_mul_right _ (by omega)
        _ = (acc + 1) * 256 ^ (b :: bs).length := by rw [List.length_cons, pow_succ]; ring
  simpa [toNat] using hfold 0

/-! ### Base64 -/

/-- The character of a six-bit group. -/
def digit (n : ℕ) : Cp :=
  if n < 26 then Fin.ofNat _ (65 + n)
  else if n < 52 then Fin.ofNat _ (71 + n)
  else if n < 62 then Fin.ofNat _ (n - 4)
  else if n = 62 then cp '+' else cp '/'

/-- The six-bit group of a character. -/
def sextet (c : Cp) : Option ℕ :=
  if isUpper c then some (c.val - 65)
  else if isLower c then some (c.val - 71)
  else if isDigit c then some (c.val + 4)
  else if c = cp '+' then some 62
  else if c = cp '/' then some 63
  else none

def b64encode : Bytes → Str
  | [] => []
  | [a] => [digit (a.val / 4), digit (a.val % 4 * 16), cp '=', cp '=']
  | [a, b] =>
    [digit (a.val / 4), digit (a.val % 4 * 16 + b.val / 16), digit (b.val % 16 * 4), cp '=']
  | a :: b :: c :: rest =>
    digit (a.val / 4) :: digit (a.val % 4 * 16 + b.val / 16) ::
      digit (b.val % 16 * 4 + c.val / 64) :: digit (c.val % 64) :: b64encode rest

/-- Where the decoder stands in a group of four, and the bits left over. -/
inductive Quad
  | q0
  | q1 (left : ℕ)
  | q2 (left : ℕ)
  | q3 (left : ℕ)
  deriving DecidableEq

/-- The padding characters that end a group here, if padding may end it. -/
def Quad.missing : Quad → Option ℕ
  | .q0 | .q1 _ => none
  | .q2 _ => some 2
  | .q3 _ => some 1

/-- `a2b_base64(text, strict_mode=True)` past the first character. -/
def a2b (quad : Quad) (pads : ℕ) (started : Bool) : Str → Option Bytes
  | [] => if quad = .q0 then some [] else none
  | c :: rest =>
    if c = cp '=' then
      match quad.missing with
      | none => a2b quad pads true rest
      | some m => if m ≤ pads + 1 then (if rest = [] then some [] else none)
          else a2b quad (pads + 1) true rest
    else
      match sextet c with
      | none => none
      | some v =>
        if started then none
        else
          match quad with
          | .q0 => a2b (.q1 v) 0 false rest
          | .q1 left => (a2b (.q2 (v % 16)) 0 false rest).map (byte (left * 4 + v / 16) :: ·)
          | .q2 left => (a2b (.q3 (v % 4)) 0 false rest).map (byte (left * 16 + v / 4) :: ·)
          | .q3 left => (a2b .q0 0 false rest).map (byte (left * 64 + v) :: ·)

/-- `base64.b64decode(text, validate=True)`. -/
def b64decode (text : Str) : Option Bytes :=
  if text.head? = some (cp '=') then none else a2b .q0 0 false text

theorem digit_ne_pad (n : ℕ) (h : n < 64) : digit n ≠ cp '=' := by
  decide +revert

theorem sextet_digit (n : ℕ) (h : n < 64) : sextet (digit n) = some n := by
  decide +revert

theorem a2b_q0 {n : ℕ} (h : n < 64) (rest : Str) :
    a2b .q0 0 false (digit n :: rest) = a2b (.q1 n) 0 false rest := by
  change ite (digit n = cp '=') _ _ = _
  rw [if_neg (digit_ne_pad n h), sextet_digit n h]
  rfl

theorem a2b_q1 {n : ℕ} (h : n < 64) (left : ℕ) (rest : Str) :
    a2b (.q1 left) 0 false (digit n :: rest) =
      (a2b (.q2 (n % 16)) 0 false rest).map (byte (left * 4 + n / 16) :: ·) := by
  change ite (digit n = cp '=') _ _ = _
  rw [if_neg (digit_ne_pad n h), sextet_digit n h]
  rfl

theorem a2b_q2 {n : ℕ} (h : n < 64) (left : ℕ) (rest : Str) :
    a2b (.q2 left) 0 false (digit n :: rest) =
      (a2b (.q3 (n % 4)) 0 false rest).map (byte (left * 16 + n / 4) :: ·) := by
  change ite (digit n = cp '=') _ _ = _
  rw [if_neg (digit_ne_pad n h), sextet_digit n h]
  rfl

theorem a2b_q3 {n : ℕ} (h : n < 64) (left : ℕ) (rest : Str) :
    a2b (.q3 left) 0 false (digit n :: rest) =
      (a2b .q0 0 false rest).map (byte (left * 64 + n) :: ·) := by
  change ite (digit n = cp '=') _ _ = _
  rw [if_neg (digit_ne_pad n h), sextet_digit n h]
  rfl

theorem byte_eq {n : ℕ} (a : Byte) (h : n = a.val) : byte n = a := by
  subst h
  exact Fin.ext (Nat.mod_eq_of_lt a.isLt)

theorem a2b_b64encode (bs : Bytes) : a2b .q0 0 false (b64encode bs) = some bs := by
  induction bs using b64encode.induct with
  | case1 => rfl
  | case2 a =>
    have ha := a.isLt
    have hpad : a2b (.q2 (a.val % 4 * 16 % 16)) 0 false [cp '=', cp '='] = some [] := rfl
    rw [b64encode, a2b_q0 (by omega), a2b_q1 (by omega), hpad, byte_eq a (by omega)]
    rfl
  | case3 a b =>
    have ha := a.isLt
    have hb := b.isLt
    have hpad : a2b (.q3 (b.val % 16 * 4 % 4)) 0 false [cp '='] = some [] := rfl
    rw [b64encode, a2b_q0 (by omega), a2b_q1 (by omega), a2b_q2 (by omega), hpad,
      byte_eq a (by omega), byte_eq b (by omega)]
    rfl
  | case4 a b c rest ih =>
    have ha := a.isLt
    have hb := b.isLt
    have hc := c.isLt
    rw [b64encode, a2b_q0 (by omega), a2b_q1 (by omega), a2b_q2 (by omega), a2b_q3 (by omega),
      ih, byte_eq a (by omega), byte_eq b (by omega), byte_eq c (by omega)]
    rfl

theorem b64decode_b64encode (bs : Bytes) : b64decode (b64encode bs) = some bs := by
  have hhead : (b64encode bs).head? ≠ some (cp '=') := by
    match bs with
    | [] => simp [b64encode]
    | [a] | [a, _] | a :: _ :: _ :: _ =>
      have ha := a.isLt
      simpa [b64encode] using digit_ne_pad (a.val / 4) (by omega)
  rw [b64decode, if_neg hhead, a2b_b64encode]

theorem digit_surrogate (n : ℕ) (h : n < 64) : isSurrogate (digit n) = false := by
  decide +revert

theorem b64encode_surrogate (bs : Bytes) : (b64encode bs).any isSurrogate = false := by
  have hpad : isSurrogate (cp '=') = false := by decide
  induction bs using b64encode.induct with
  | case1 => rfl
  | case2 a =>
    have ha := a.isLt
    simp only [b64encode, List.any_cons, List.any_nil, hpad, Bool.or_false,
      digit_surrogate (a.val / 4) (by omega), digit_surrogate (a.val % 4 * 16) (by omega)]
  | case3 a b =>
    have ha := a.isLt
    have hb := b.isLt
    simp only [b64encode, List.any_cons, List.any_nil, hpad, Bool.or_false,
      digit_surrogate (a.val / 4) (by omega),
      digit_surrogate (a.val % 4 * 16 + b.val / 16) (by omega),
      digit_surrogate (b.val % 16 * 4) (by omega)]
  | case4 a b c rest ih =>
    have ha := a.isLt
    have hb := b.isLt
    have hc := c.isLt
    simp only [b64encode, List.any_cons, ih, Bool.or_false,
      digit_surrogate (a.val / 4) (by omega),
      digit_surrogate (a.val % 4 * 16 + b.val / 16) (by omega),
      digit_surrogate (b.val % 16 * 4 + c.val / 64) (by omega),
      digit_surrogate (c.val % 64) (by omega)]

end Bytes
end AskFable.Python

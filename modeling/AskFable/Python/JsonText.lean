import AskFable.Python.Json

/-!
# Reading and writing JSON

`json.loads` on a string, with its own grammar: `NaN` and the infinities are numbers,
control characters are refused inside strings, a repeated key keeps its place and takes
the later value, and an integer of more than 4300 digits is a `ValueError` that is no
`JSONDecodeError`. Nesting past the interpreter's limit is a `RecursionError`, which no
handler of `ValueError` sees.
-/
namespace AskFable.Python.JsonText
open AskFable.Text AskFable.Python

inductive LoadError
  /-- `JSONDecodeError`. -/
  | value
  /-- The `ValueError` of an integer with too many digits. -/
  | digits
  | recursion
  deriving DecidableEq, Repr

def MAX_INT_DIGITS : ℕ := 4300

def isWs (c : Cp) : Bool := c == cp ' ' || c == cp '\t' || c == cp '\n' || c == cp '\r'

def skipWs (s : Str) : Str := s.dropWhile isWs

/-! ### Strings -/

def hexVal (c : Cp) : Option ℕ :=
  if isDigit c then some (c.val - 48)
  else if 97 ≤ c.val ∧ c.val ≤ 102 then some (c.val - 87)
  else if 65 ≤ c.val ∧ c.val ≤ 70 then some (c.val - 55)
  else none

def unescape (c : Cp) : Option Cp :=
  if c = cp '"' then some (cp '"')
  else if c = cp '\\' then some (cp '\\')
  else if c = cp '/' then some (cp '/')
  else if c = cp 'b' then some 8
  else if c = cp 'f' then some 12
  else if c = cp 'n' then some 10
  else if c = cp 'r' then some 13
  else if c = cp 't' then some 9
  else none

def isHigh (n : ℕ) : Bool := 0xD800 ≤ n && n ≤ 0xDBFF

def isLow (n : ℕ) : Bool := 0xDC00 ≤ n && n ≤ 0xDFFF

def point (n : ℕ) : Cp := Fin.ofNat _ n

def joinPair (high low : ℕ) : Cp := point (0x10000 + (high - 0xD800) * 1024 + (low - 0xDC00))

/-- Where the string scanner stands: after a backslash, inside a `\uXXXX` with some
digits to come, or the same with a high surrogate waiting for its partner. -/
inductive StrState
  | plain
  | esc
  | hex (left n : ℕ)
  | high (h : ℕ)
  | highEsc (h : ℕ)
  | highHex (h left n : ℕ)
  deriving DecidableEq

def emit (c : Cp) : Option (Str × Str) → Option (Str × Str) := Option.map fun p => (c :: p.1, p.2)

/-- `scanstring` past the opening quote: the value and what follows the closing quote. -/
def scanStr : StrState → Str → Option (Str × Str)
  | _, [] => none
  | .plain, c :: rest =>
    if c = cp '"' then some ([], rest)
    else if c = cp '\\' then scanStr .esc rest
    else if c.val < 32 then none
    else emit c (scanStr .plain rest)
  | .esc, c :: rest =>
    if c = cp 'u' then scanStr (.hex 3 0) rest
    else (unescape c).bind fun e => emit e (scanStr .plain rest)
  | .hex left n, c :: rest =>
    (hexVal c).bind fun d =>
      let n := n * 16 + d
      if left ≠ 0 then scanStr (.hex (left - 1) n) rest
      else if isHigh n then scanStr (.high n) rest
      else emit (point n) (scanStr .plain rest)
  | .high h, c :: rest =>
    if c = cp '"' then some ([point h], rest)
    else if c = cp '\\' then scanStr (.highEsc h) rest
    else if c.val < 32 then none
    else emit (point h) (emit c (scanStr .plain rest))
  | .highEsc h, c :: rest =>
    if c = cp 'u' then scanStr (.highHex h 3 0) rest
    else (unescape c).bind fun e => emit (point h) (emit e (scanStr .plain rest))
  | .highHex h left n, c :: rest =>
    (hexVal c).bind fun d =>
      let n := n * 16 + d
      if left ≠ 0 then scanStr (.highHex h (left - 1) n) rest
      else if isLow n then emit (joinPair h n) (scanStr .plain rest)
      else if isHigh n then emit (point h) (scanStr (.high n) rest)
      else emit (point h) (emit (point n) (scanStr .plain rest))

/-! ### Numbers -/

def natOfDigits (ds : Str) : ℕ := ds.foldl (fun n d => n * 10 + (d.val - 48)) 0

/-- The fraction of a number, empty when no digit follows the point. -/
def fraction (s : Str) : Str × Str :=
  match s with
  | c :: rest =>
    let ds := rest.takeWhile isDigit
    if c = cp '.' ∧ ds ≠ [] then (c :: ds, rest.dropWhile isDigit) else ([], s)
  | [] => ([], s)

/-- The exponent of a number, empty when it has no digit. -/
def exponent (s : Str) : Str × Str :=
  match s with
  | c :: rest =>
    if c = cp 'e' ∨ c = cp 'E' then
      let sign := rest.take 1 |>.filter fun d => d == cp '+' || d == cp '-'
      let rest := rest.drop sign.length
      let ds := rest.takeWhile isDigit
      if ds ≠ [] then (c :: sign ++ ds, rest.dropWhile isDigit) else ([], s)
    else ([], s)
  | [] => ([], s)

def integral (s : Str) : Str × Str :=
  match s with
  | c :: rest => if c = cp '0' then ([c], rest) else (s.takeWhile isDigit, s.dropWhile isDigit)
  | [] => ([], [])

section
variable [Host]

def scanNumber (s : Str) : Except LoadError (Json × Str) :=
  let sign := s.take 1 |>.filter (· == cp '-')
  let (ds, rest) := integral (s.drop sign.length)
  if ds = [] then .error .value
  else
    let (frac, rest) := fraction rest
    let (exp, rest) := exponent rest
    if frac ++ exp ≠ [] then .ok (.float (Host.floatRepr (sign ++ ds ++ frac ++ exp)), rest)
    else if MAX_INT_DIGITS < ds.length then .error .digits
    else .ok (.int (if sign = [] then natOfDigits ds else -natOfDigits ds), rest)

/-! ### Values -/

/-- `s` past a literal. -/
def past (word s : Str) : Option Str := if word.isPrefixOf s then some (s.drop word.length) else none

/-- The words that are values by themselves. -/
def WORDS : List (Str × Json) :=
  [(txt "null", .null), (txt "true", .bool true), (txt "false", .bool false),
    (txt "NaN", .float (txt "nan")), (txt "Infinity", .float (txt "inf")),
    (txt "-Infinity", .float (txt "-inf"))]

def scanWord (s : Str) : Option (Json × Str) :=
  WORDS.findSome? fun w => (past w.1 s).map fun rest => (w.2, rest)

def scanKey (s : Str) : Option (Str × Str) :=
  match s with
  | c :: rest =>
    if c = cp '"' then
      (scanStr .plain rest).bind fun p => (past [cp ':'] (skipWs p.2)).map fun r => (p.1, skipWs r)
    else none
  | [] => none

mutual

/-- `scan_once`: the value at the start of the text and what follows it. `room` is how
many containers may still be opened; a fuel of twice the text's length is never used up. -/
def scanOnce : (fuel room : ℕ) → Str → Except LoadError (Json × Str)
  | 0, _, _ => .error .value
  | _ + 1, _, [] => .error .value
  | fuel + 1, room, c :: rest =>
    if c = cp '"' then
      match scanStr .plain rest with
      | some (s, rest) => .ok (.str s, rest)
      | none => .error .value
    else if c = cp '{' then
      match room with
      | 0 => .error .recursion
      | room + 1 =>
        match past [cp '}'] (skipWs rest) with
        | some rest => .ok (.obj [], rest)
        | none => scanMembers fuel room [] (skipWs rest)
    else if c = cp '[' then
      match room with
      | 0 => .error .recursion
      | room + 1 =>
        match past [cp ']'] (skipWs rest) with
        | some rest => .ok (.arr [], rest)
        | none => scanElements fuel room [] (skipWs rest)
    else
      match scanWord (c :: rest) with
      | some r => .ok r
      | none => scanNumber (c :: rest)

def scanMembers : (fuel room : ℕ) → Dict → Str → Except LoadError (Json × Str)
  | 0, _, _, _ => .error .value
  | fuel + 1, room, acc, s =>
    match scanKey s with
    | none => .error .value
    | some (key, s) =>
      match scanOnce fuel room s with
      | .error e => .error e
      | .ok (v, s) =>
        match past [cp '}'] (skipWs s) with
        | some rest => .ok (.obj (Dict.set acc key v), rest)
        | none =>
          match past [cp ','] (skipWs s) with
          | some rest => scanMembers fuel room (Dict.set acc key v) (skipWs rest)
          | none => .error .value

def scanElements : (fuel room : ℕ) → List Json → Str → Except LoadError (Json × Str)
  | 0, _, _, _ => .error .value
  | fuel + 1, room, acc, s =>
    match scanOnce fuel room s with
    | .error e => .error e
    | .ok (v, s) =>
      match past [cp ']'] (skipWs s) with
      | some rest => .ok (.arr (acc ++ [v]), rest)
      | none =>
        match past [cp ','] (skipWs s) with
        | some rest => scanElements fuel room (acc ++ [v]) (skipWs rest)
        | none => .error .value

end

/-- `json.loads`. -/
def loads (s : Str) : Except LoadError Json :=
  if s.head? = some (Fin.ofNat _ 0xFEFF) then .error .value
  else
    match scanOnce (2 * s.length + 2) Host.nestLimit (skipWs s) with
    | .error e => .error e
    | .ok (v, rest) => if skipWs rest = [] then .ok v else .error .value

end

/-! ### Writing -/

def hexDigit (n : ℕ) : Cp := if n < 10 then Fin.ofNat _ (48 + n) else Fin.ofNat _ (87 + n)

def escapeChar (c : Cp) : Str :=
  if c = cp '"' then txt "\\\""
  else if c = cp '\\' then txt "\\\\"
  else if c.val = 8 then txt "\\b"
  else if c.val = 12 then txt "\\f"
  else if c.val = 10 then txt "\\n"
  else if c.val = 13 then txt "\\r"
  else if c.val = 9 then txt "\\t"
  else if c.val < 32 then txt "\\u00" ++ [hexDigit (c.val / 16), hexDigit (c.val % 16)]
  else [c]

/-- A string as `json.dumps(…, ensure_ascii=False)` writes it. -/
def dumpStr (s : Str) : Str := cp '"' :: s.flatMap escapeChar ++ [cp '"']

theorem hexVal_hexDigit (n : ℕ) (h : n < 16) : hexVal (hexDigit n) = some n := by
  decide +revert

theorem scanStr_plain_cons (c : Cp) (rest : Str) : scanStr .plain (c :: rest) =
    if c = cp '"' then some ([], rest)
    else if c = cp '\\' then scanStr .esc rest
    else if c.val < 32 then none
    else emit c (scanStr .plain rest) := rfl

theorem scanStr_esc_cons (c : Cp) (rest : Str) : scanStr .esc (c :: rest) =
    if c = cp 'u' then scanStr (.hex 3 0) rest
    else (unescape c).bind fun e => emit e (scanStr .plain rest) := rfl

theorem scanStr_hex_cons (left n : ℕ) (c : Cp) (rest : Str) :
    scanStr (.hex left n) (c :: rest) = (hexVal c).bind fun d =>
      if left ≠ 0 then scanStr (.hex (left - 1) (n * 16 + d)) rest
      else if isHigh (n * 16 + d) then scanStr (.high (n * 16 + d)) rest
      else emit (point (n * 16 + d)) (scanStr .plain rest) := rfl

theorem scanStr_high_cons (h : ℕ) (c : Cp) (rest : Str) : scanStr (.high h) (c :: rest) =
    if c = cp '"' then some ([point h], rest)
    else if c = cp '\\' then scanStr (.highEsc h) rest
    else if c.val < 32 then none
    else emit (point h) (emit c (scanStr .plain rest)) := rfl

theorem scanStr_highEsc_cons (h : ℕ) (c : Cp) (rest : Str) : scanStr (.highEsc h) (c :: rest) =
    if c = cp 'u' then scanStr (.highHex h 3 0) rest
    else (unescape c).bind fun e => emit (point h) (emit e (scanStr .plain rest)) := rfl

theorem scanStr_highHex_cons (h left n : ℕ) (c : Cp) (rest : Str) :
    scanStr (.highHex h left n) (c :: rest) = (hexVal c).bind fun d =>
      if left ≠ 0 then scanStr (.highHex h (left - 1) (n * 16 + d)) rest
      else if isLow (n * 16 + d) then emit (joinPair h (n * 16 + d)) (scanStr .plain rest)
      else if isHigh (n * 16 + d) then emit (point h) (scanStr (.high (n * 16 + d)) rest)
      else emit (point h) (emit (point (n * 16 + d)) (scanStr .plain rest)) := rfl

theorem scanStr_plain {c : Cp} (hq : c ≠ cp '"') (hb : c ≠ cp '\\') (hc : 32 ≤ c.val)
    (rest : Str) : scanStr .plain (c :: rest) = emit c (scanStr .plain rest) := by
  rw [scanStr_plain_cons, if_neg hq, if_neg hb, if_neg (by omega)]

theorem scanStr_esc {c e : Cp} (hu : c ≠ cp 'u') (he : unescape c = some e) (rest : Str) :
    scanStr .plain (cp '\\' :: c :: rest) = emit e (scanStr .plain rest) := by
  rw [scanStr_plain_cons, if_neg (by decide), if_pos rfl, scanStr_esc_cons, if_neg hu, he,
    Option.bind_some]

theorem scanStr_hex_more {c : Cp} {d : ℕ} (hd : hexVal c = some d) (left n : ℕ) (rest : Str) :
    scanStr (.hex (left + 1) n) (c :: rest) = scanStr (.hex left (n * 16 + d)) rest := by
  rw [scanStr_hex_cons, hd, Option.bind_some]
  simp

theorem scanStr_hex_last {c : Cp} {d n : ℕ} (hd : hexVal c = some d)
    (hhigh : isHigh (n * 16 + d) = false) (rest : Str) :
    scanStr (.hex 0 n) (c :: rest) = emit (point (n * 16 + d)) (scanStr .plain rest) := by
  rw [scanStr_hex_cons, hd, Option.bind_some]
  simp [hhigh]

theorem scanStr_control {n : ℕ} (h : n < 32) (rest : Str) :
    scanStr .plain (txt "\\u00" ++ [hexDigit (n / 16), hexDigit (n % 16)] ++ rest) =
      emit (point n) (scanStr .plain rest) := by
  have hzero : hexVal (cp '0') = some 0 := by decide
  have hval : ((0 * 16 + 0) * 16 + 0) * 16 + n / 16 = n / 16 := by omega
  have hsum : n / 16 * 16 + n % 16 = n := by omega
  have hhigh : isHigh (n / 16 * 16 + n % 16) = false := by
    simp only [isHigh, Bool.and_eq_false_iff, decide_eq_false_iff_not]
    omega
  have htext : txt "\\u00" ++ [hexDigit (n / 16), hexDigit (n % 16)] ++ rest =
      cp '\\' :: cp 'u' :: cp '0' :: cp '0' :: hexDigit (n / 16) :: hexDigit (n % 16) :: rest := rfl
  rw [htext, scanStr_plain_cons, if_neg (by decide), if_pos rfl, scanStr_esc_cons, if_pos rfl,
    scanStr_hex_more hzero, scanStr_hex_more hzero,
    scanStr_hex_more (hexVal_hexDigit (n / 16) (by omega)), hval,
    scanStr_hex_last (hexVal_hexDigit (n % 16) (by omega)) hhigh, hsum]

/-- The scanner reads back an escaped character. -/
theorem scanStr_escapeChar (c : Cp) (rest : Str) :
    scanStr .plain (escapeChar c ++ rest) = emit c (scanStr .plain rest) := by
  have hval {n : ℕ} {e : Cp} (he : e.val = n) (hc : c.val = n) : c = e :=
    Fin.ext (hc.trans he.symm)
  unfold escapeChar
  split_ifs with h1 h2 h3 h4 h5 h6 h7 h8
  · exact h1 ▸ scanStr_esc (by decide) (by decide) rest
  · exact h2 ▸ scanStr_esc (by decide) (by decide) rest
  · exact hval (e := 8) rfl h3 ▸ scanStr_esc (by decide) (by decide) rest
  · exact hval (e := 12) rfl h4 ▸ scanStr_esc (by decide) (by decide) rest
  · exact hval (e := 10) rfl h5 ▸ scanStr_esc (by decide) (by decide) rest
  · exact hval (e := 13) rfl h6 ▸ scanStr_esc (by decide) (by decide) rest
  · exact hval (e := 9) rfl h7 ▸ scanStr_esc (by decide) (by decide) rest
  · have hpoint : point c.val = c := Fin.ext (Nat.mod_eq_of_lt c.isLt)
    rw [scanStr_control h8, hpoint]
  · exact scanStr_plain h1 h2 (by omega) rest

/-- The scanner reads back a dumped string. -/
theorem scanStr_flatMap (s rest : Str) :
    scanStr .plain (s.flatMap escapeChar ++ cp '"' :: rest) = some (s, rest) := by
  induction s with
  | nil => rfl
  | cons c s ih =>
    rw [List.flatMap_cons, List.append_assoc, scanStr_escapeChar, ih]
    rfl

theorem escapeChar_surrogate (c : Cp) : (escapeChar c).any isSurrogate = isSurrogate c := by
  have hhex : ∀ n < 16, isSurrogate (hexDigit n) = false := by decide
  have hplain {c : Cp} (h : c.val < 0xD800) : isSurrogate c = false := by
    simp only [isSurrogate, Bool.and_eq_false_iff, decide_eq_false_iff_not]
    omega
  unfold escapeChar
  split_ifs with h1 h2 h3 h4 h5 h6 h7 h8
  · exact h1 ▸ rfl
  · exact h2 ▸ rfl
  · exact (hplain (c := c) (by omega)).symm ▸ rfl
  · exact (hplain (c := c) (by omega)).symm ▸ rfl
  · exact (hplain (c := c) (by omega)).symm ▸ rfl
  · exact (hplain (c := c) (by omega)).symm ▸ rfl
  · exact (hplain (c := c) (by omega)).symm ▸ rfl
  · have hd := hhex (c.val / 16) (by omega)
    have hm := hhex (c.val % 16) (by omega)
    have ht : (txt "\\u00").any isSurrogate = false := by decide
    simp [List.any_append, hd, hm, ht, hplain (c := c) (by omega)]
  · simp

/-- Escaping keeps the surrogates and brings none in. -/
theorem dumpStr_surrogate (s : Str) : (dumpStr s).any isSurrogate = s.any isSurrogate := by
  have hq : isSurrogate (cp '"') = false := by decide
  have hbody : (s.flatMap escapeChar).any isSurrogate = s.any isSurrogate := by
    induction s with
    | nil => rfl
    | cons c s ih => rw [List.flatMap_cons, List.any_append, escapeChar_surrogate, ih, List.any_cons]
  simp [dumpStr, List.any_append, hq, hbody]

end AskFable.Python.JsonText

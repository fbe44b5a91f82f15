import AskFable.Python.Bytes

/-!
# UTF-8 with and without surrogates

`str.encode("utf-8")` refuses a lone surrogate; the `surrogatepass` handler writes and
reads one as the three bytes its number would have.
-/
namespace AskFable.Python.Utf8
open AskFable.Text AskFable.Python AskFable.Python.Bytes

def encodeChar (c : Cp) : Bytes :=
  if c.val < 0x80 then [byte c.val]
  else if c.val < 0x800 then [byte (0xC0 + c.val / 64), byte (0x80 + c.val % 64)]
  else if c.val < 0x10000 then
    [byte (0xE0 + c.val / 4096), byte (0x80 + c.val / 64 % 64), byte (0x80 + c.val % 64)]
  else
    [byte (0xF0 + c.val / 262144), byte (0x80 + c.val / 4096 % 64),
      byte (0x80 + c.val / 64 % 64), byte (0x80 + c.val % 64)]

/-- `s.encode("utf-8", "surrogatepass")`. -/
def encodePass (s : Str) : Bytes := s.flatMap encodeChar

/-- `s.encode("utf-8")`; `none` is `UnicodeEncodeError`. -/
def encode (s : Str) : Option Bytes := if s.any isSurrogate then none else some (encodePass s)

def isCont (b : Byte) : Bool := 0x80 ≤ b.val && b.val < 0xC0

/-- A decoded number, if it may stand in this many bytes. -/
def point (pass : Bool) (low n : ℕ) : Option Cp :=
  if h : n < 0x110000 then
    if low ≤ n ∧ (pass = true ∨ ¬(0xD800 ≤ n ∧ n ≤ 0xDFFF)) then some ⟨n, h⟩ else none
  else none

/-- The character a byte below 0x80 stands for. -/
def ascii (b : Byte) : Cp := Fin.ofNat _ b.val

/-- `b.decode("utf-8")`, with `surrogatepass` when `pass`; `none` is
`UnicodeDecodeError`. -/
def decodeWith (pass : Bool) : Bytes → Option Str
  | [] => some []
  | a :: rest =>
    if a.val < 0x80 then (decodeWith pass rest).map (ascii a :: ·)
    else if a.val < 0xC0 then none
    else
      match rest with
      | [] => none
      | b :: rest =>
        if !isCont b then none
        else if a.val < 0xE0 then
          (point pass 0x80 ((a.val - 0xC0) * 64 + (b.val - 0x80))).bind fun c =>
            (decodeWith pass rest).map (c :: ·)
        else
          match rest with
          | [] => none
          | d :: rest =>
            if !isCont d then none
            else if a.val < 0xF0 then
              (point pass 0x800 ((a.val - 0xE0) * 4096 + (b.val - 0x80) * 64 +
                  (d.val - 0x80))).bind fun c =>
                (decodeWith pass rest).map (c :: ·)
            else
              match rest with
              | [] => none
              | e :: rest =>
                if !isCont e then none
                else
                  (point pass 0x10000 ((a.val - 0xF0) * 262144 + (b.val - 0x80) * 4096 +
                      (d.val - 0x80) * 64 + (e.val - 0x80))).bind fun c =>
                    (decodeWith pass rest).map (c :: ·)

def decodePass (bs : Bytes) : Option Str := decodeWith true bs

def decode (bs : Bytes) : Option Str := decodeWith false bs

theorem point_self {pass : Bool} {low : ℕ} {c : Cp} {n : ℕ} (hn : n = c.val) (hlow : low ≤ c.val)
    (hc : pass = true ∨ isSurrogate c = false) : point pass low n = some c := by
  subst hn
  have hc' : pass = true ∨ ¬(0xD800 ≤ c.val ∧ c.val ≤ 0xDFFF) := by
    refine hc.imp_right fun h => ?_
    simp only [isSurrogate, Bool.and_eq_false_iff, decide_eq_false_iff_not] at h
    omega
  rw [point, dif_pos c.isLt, if_pos ⟨hlow, hc'⟩]

theorem decodeWith_one {pass : Bool} {a : Byte} (h : a.val < 0x80) (rest : Bytes) :
    decodeWith pass (a :: rest) = (decodeWith pass rest).map (ascii a :: ·) := by
  delta decodeWith
  exact if_pos h

theorem decodeWith_two {pass : Bool} {a b : Byte} {c : Cp} (h1 : 0xC0 ≤ a.val)
    (h2 : a.val < 0xE0) (hb : isCont b = true)
    (hc : point pass 0x80 ((a.val - 0xC0) * 64 + (b.val - 0x80)) = some c) (rest : Bytes) :
    decodeWith pass (a :: b :: rest) = (decodeWith pass rest).map (c :: ·) := by
  have h80 : ¬a.val < 0x80 := by omega
  have hC0 : ¬a.val < 0xC0 := by omega
  have hb' : ¬(!isCont b) = true := by simp [hb]
  -- the decoder's branches, in their order
  delta decodeWith
  refine (if_neg h80).trans ((if_neg hC0).trans ((if_neg hb').trans ((if_pos h2).trans ?_)))
  rw [hc]
  rfl

theorem decodeWith_three {pass : Bool} {a b d : Byte} {c : Cp} (h1 : 0xE0 ≤ a.val)
    (h2 : a.val < 0xF0) (hb : isCont b = true) (hd : isCont d = true)
    (hc : point pass 0x800 ((a.val - 0xE0) * 4096 + (b.val - 0x80) * 64 + (d.val - 0x80)) = some c)
    (rest : Bytes) :
    decodeWith pass (a :: b :: d :: rest) = (decodeWith pass rest).map (c :: ·) := by
  have h80 : ¬a.val < 0x80 := by omega
  have hC0 : ¬a.val < 0xC0 := by omega
  have hE0 : ¬a.val < 0xE0 := by omega
  have hb' : ¬(!isCont b) = true := by simp [hb]
  have hd' : ¬(!isCont d) = true := by simp [hd]
  delta decodeWith
  refine (if_neg h80).trans ((if_neg hC0).trans ((if_neg hb').trans ((if_neg hE0).trans
    ((if_neg hd').trans ((if_pos h2).trans ?_)))))
  rw [hc]
  rfl

theorem decodeWith_four {pass : Bool} {a b d e : Byte} {c : Cp} (h1 : 0xF0 ≤ a.val)
    (hb : isCont b = true) (hd : isCont d = true) (he : isCont e = true)
    (hc : point pass 0x10000 ((a.val - 0xF0) * 262144 + (b.val - 0x80) * 4096 +
      (d.val - 0x80) * 64 + (e.val - 0x80)) = some c) (rest : Bytes) :
    decodeWith pass (a :: b :: d :: e :: rest) = (decodeWith pass rest).map (c :: ·) := by
  have h80 : ¬a.val < 0x80 := by omega
  have hC0 : ¬a.val < 0xC0 := by omega
  have hE0 : ¬a.val < 0xE0 := by omega
  have hF0 : ¬a.val < 0xF0 := by omega
  have hb' : ¬(!isCont b) = true := by simp [hb]
  have hd' : ¬(!isCont d) = true := by simp [hd]
  have he' : ¬(!isCont e) = true := by simp [he]
  delta decodeWith
  refine (if_neg h80).trans ((if_neg hC0).trans ((if_neg hb').trans ((if_neg hE0).trans
    ((if_neg hd').trans ((if_neg hF0).trans ((if_neg he').trans ?_))))))
  rw [hc]
  rfl

theorem byte_val_of_lt {n : ℕ} (h : n < 256) : (byte n).val = n := Nat.mod_eq_of_lt h

theorem isCont_byte {n : ℕ} (h : n < 64) : isCont (byte (0x80 + n)) = true := by
  have hv : (byte (0x80 + n)).val = 0x80 + n := byte_val_of_lt (by omega)
  simp only [isCont, hv, Bool.and_eq_true, decide_eq_true_eq]
  omega

/-- Decoding reads back one character. -/
theorem decodeWith_encodeChar {pass : Bool} {c : Cp} (hc : pass = true ∨ isSurrogate c = false)
    (rest : Bytes) :
    decodeWith pass (encodeChar c ++ rest) = (decodeWith pass rest).map (c :: ·) := by
  have hlt := c.isLt
  have hmod (n : ℕ) : n % 64 < 64 := Nat.mod_lt n (by omega)
  have hcont (n : ℕ) : (byte (0x80 + n % 64)).val = 0x80 + n % 64 := byte_val_of_lt (by omega)
  unfold encodeChar
  split_ifs with h1 h2 h3
  · have ha : (byte c.val).val = c.val := byte_val_of_lt (by omega)
    have hascii : ascii (byte c.val) = c := by
      apply Fin.ext
      simp only [ascii, Fin.ofNat, ha]
      omega
    rw [List.singleton_append, decodeWith_one (by omega), hascii]
  · have ha : (byte (0xC0 + c.val / 64)).val = 0xC0 + c.val / 64 := byte_val_of_lt (by omega)
    refine decodeWith_two (by omega) (by omega) (isCont_byte (hmod _)) ?_ rest
    rw [ha, hcont]
    exact point_self (by omega) (by omega) hc
  · have ha : (byte (0xE0 + c.val / 4096)).val = 0xE0 + c.val / 4096 := byte_val_of_lt (by omega)
    refine decodeWith_three (by omega) (by omega) (isCont_byte (hmod _)) (isCont_byte (hmod _)) ?_
      rest
    rw [ha, hcont, hcont]
    exact point_self (by omega) (by omega) hc
  · have ha : (byte (0xF0 + c.val / 262144)).val = 0xF0 + c.val / 262144 :=
      byte_val_of_lt (by omega)
    refine decodeWith_four (by omega) (isCont_byte (hmod _)) (isCont_byte (hmod _))
      (isCont_byte (hmod _)) ?_ rest
    rw [ha, hcont, hcont, hcont]
    exact point_self (by omega) (by omega) hc

theorem decodePass_encodePass (s : Str) : decodePass (encodePass s) = some s := by
  induction s with
  | nil => rfl
  | cons c s ih =>
    unfold decodePass encodePass at *
    rw [List.flatMap_cons, decodeWith_encodeChar (.inl rfl), ih, Option.map_some]

theorem encodePass_injective : Function.Injective encodePass := fun s t h =>
  Option.some.inj (by rw [← decodePass_encodePass s, h, decodePass_encodePass])

theorem decode_encode {s : Str} {bs : Bytes} (h : encode s = some bs) : decode bs = some s := by
  unfold encode at h
  split_ifs at h with hs
  rw [← Option.some.inj h]
  unfold decode
  clear h
  induction s with
  | nil => rfl
  | cons c s ih =>
    simp only [List.any_cons, Bool.or_eq_true, not_or, Bool.not_eq_true] at hs
    unfold encodePass at *
    rw [List.flatMap_cons, decodeWith_encodeChar (.inr hs.1), ih (by simp [hs.2]),
      Option.map_some]

theorem point_val {pass : Bool} {low n : ℕ} {c : Cp} (h : point pass low n = some c) :
    c.val = n := by
  unfold point at h
  split_ifs at h
  rw [← Option.some.inj h]

theorem point_low {pass : Bool} {low n : ℕ} {c : Cp} (h : point pass low n = some c) :
    low ≤ n := by
  unfold point at h
  split_ifs at h with _ hlow
  exact hlow.1

theorem isCont_val {b : Byte} (h : isCont b = true) : 0x80 ≤ b.val ∧ b.val < 0xC0 := by
  simpa [isCont] using h

/-- What was decoded is encoded to the same bytes again. -/
theorem encodePass_of_decode {pass : Bool} {bs : Bytes} {s : Str}
    (h : decodeWith pass bs = some s) : encodePass s = bs := by
  have hstep {n low : ℕ} (front : Bytes) {rest : Bytes} {t : Str}
      (hn : ∀ c : Cp, c.val = n → low ≤ n → encodeChar c = front)
      (ih : ∀ {t : Str}, decodeWith pass rest = some t → encodePass t = rest)
      (h : ((point pass low n).bind fun c => (decodeWith pass rest).map (c :: ·)) = some t) :
      encodePass t = front ++ rest := by
    obtain ⟨c, hc, h⟩ := Option.bind_eq_some_iff.mp h
    obtain ⟨u, hu, rfl⟩ := Option.map_eq_some_iff.mp h
    rw [encodePass, List.flatMap_cons, hn c (point_val hc) (point_low hc), ← encodePass, ih hu]
  fun_induction decodeWith pass bs generalizing s with
  | case1 => simp [← Option.some.inj h, encodePass]
  | case2 a rest h1 ih =>
    obtain ⟨t, ht, rfl⟩ := Option.map_eq_some_iff.mp h
    have hval : (ascii a).val = a.val := by
      simp only [ascii, Fin.ofNat]
      omega
    rw [encodePass, List.flatMap_cons, ← encodePass, ih ht, encodeChar, if_pos (by omega),
      byte_eq a hval, List.singleton_append]
  | case6 a h1 h2 b rest hb h3 ih =>
    have hb' := isCont_val (by simpa using hb)
    refine hstep [a, b] (fun c hc hlow => ?_) ih h
    rw [encodeChar, if_neg (by omega), if_pos (by omega), byte_eq a (by omega),
      byte_eq b (by omega)]
  | case9 a h1 h2 b hb h3 d rest hd h4 ih =>
    have hb' := isCont_val (by simpa using hb)
    have hd' := isCont_val (by simpa using hd)
    refine hstep [a, b, d] (fun c hc hlow => ?_) ih h
    rw [encodeChar, if_neg (by omega), if_neg (by omega), if_pos (by omega),
      byte_eq a (by omega), byte_eq b (by omega), byte_eq d (by omega)]
  | case12 a h1 h2 b hb h3 d hd h4 e rest he ih =>
    have hb' := isCont_val (by simpa using hb)
    have hd' := isCont_val (by simpa using hd)
    have he' := isCont_val (by simpa using he)
    refine hstep [a, b, d, e] (fun c hc hlow => ?_) ih h
    rw [encodeChar, if_neg (by omega), if_neg (by omega), if_neg (by omega),
      byte_eq a (by omega), byte_eq b (by omega), byte_eq d (by omega), byte_eq e (by omega)]
  | _ => simp at h

theorem encodePass_append (s t : Str) : encodePass (s ++ t) = encodePass s ++ encodePass t :=
  List.flatMap_append

/-- Beyond ASCII no byte of a character is an ASCII byte. -/
theorem mem_encodeChar {b : Byte} {c : Cp} (h : b ∈ encodeChar c) :
    b.val = c.val ∨ 128 ≤ b.val := by
  have hc := c.isLt
  unfold encodeChar at h
  split_ifs at h
  all_goals
    simp only [List.mem_cons, List.not_mem_nil, or_false] at h
  · rw [h, byte_val_of_lt (by omega)]
    exact .inl rfl
  all_goals
    right
    rcases h with rfl | rfl | rfl | rfl <;> rw [byte_val_of_lt (by omega)] <;> omega

/-! ### Errors replaced -/

/-- The bytes that continue a lead byte, each within its bounds; `none` for a byte that leads
nothing. -/
def followers (a : Byte) : Option (List (ℕ × ℕ)) :=
  let any := (0x80, 0xBF)
  if a.val < 0x80 then some []
  else if a.val < 0xC2 then none
  else if a.val < 0xE0 then some [any]
  else if a.val = 0xE0 then some [(0xA0, 0xBF), any]
  else if a.val = 0xED then some [(0x80, 0x9F), any]
  else if a.val < 0xF0 then some [any, any]
  else if a.val = 0xF0 then some [(0x90, 0xBF), any, any]
  else if a.val < 0xF4 then some [any, any, any]
  else if a.val = 0xF4 then some [(0x80, 0x8F), any, any]
  else none

/-- U+FFFD. -/
def REPLACEMENT : Cp := 0xFFFD

/-- The sequence being read: the bytes still to come, and the number read so far. -/
abbrev Pending := List (ℕ × ℕ) × ℕ

/-- A byte at the start of a sequence. -/
def lead (a : Byte) : Str × Option Pending :=
  match followers a with
  | none => ([REPLACEMENT], none)
  | some [] => ([ascii a], none)
  | some [r] => ([], some ([r], a.val - 0xC0))
  | some [r, r'] => ([], some ([r, r'], a.val - 0xE0))
  | some rs => ([], some (rs, a.val - 0xF0))

/-- What one more byte puts out: a sequence that it does not continue is replaced as a whole,
and the byte starts the next one. -/
def feed : Option Pending → Byte → Str × Option Pending
  | none, b => lead b
  | some ([], _), b => lead b
  | some ((lo, hi) :: more, n), b =>
    if lo ≤ b.val ∧ b.val ≤ hi then
      if more.isEmpty then ([Fin.ofNat _ (n * 64 + (b.val - 0x80))], none)
      else ([], some (more, n * 64 + (b.val - 0x80)))
    else (REPLACEMENT :: (lead b).1, (lead b).2)

def decodeFrom : Option Pending → Bytes → Str
  | none, [] => []
  | some _, [] => [REPLACEMENT]
  | s, b :: rest => (feed s b).1 ++ decodeFrom (feed s b).2 rest

/-- `b.decode("utf-8", "replace")`. -/
def decodeReplace (bs : Bytes) : Str := decodeFrom none bs

end AskFable.Python.Utf8

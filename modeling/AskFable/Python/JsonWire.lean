import AskFable.Python.JsonAscii
import AskFable.Python.JsonDumps

/-!
# Objects that go over a wire

`json.dumps` writes a string as its code units, and the reader joins the halves of a character
that stand side by side. An array or object of written values is read back item by item, whatever
whitespace the separators have.
-/
namespace AskFable.Python.JsonText
open AskFable.Text AskFable.Python

/-! ### Strings -/

/-- A string as it comes back: surrogates that pair are one character. -/
def mend : Str → Str
  | [] => []
  | [c] => [c]
  | c :: d :: s =>
    if isHigh c.val ∧ isLow d.val then joinPair c.val d.val :: mend s else c :: mend (d :: s)

theorem mend_cons_cons (c d : Cp) (s : Str) : mend (c :: d :: s) =
    if isHigh c.val ∧ isLow d.val then joinPair c.val d.val :: mend s else c :: mend (d :: s) := rfl

theorem mend_cons_of_not_high {c : Cp} (h : isHigh c.val = false) (s : Str) :
    mend (c :: s) = c :: mend s := by
  cases s with
  | nil => rfl
  | cons d s => rw [mend_cons_cons, if_neg fun hpair => by simp [h] at hpair]

theorem mend_cons_of_not_low (c : Cp) {d : Cp} (h : isLow d.val = false) (s : Str) :
    mend (c :: d :: s) = c :: mend (d :: s) := by
  rw [mend_cons_cons, if_neg fun hpair => by simp [h] at hpair]

theorem mend_pair {c d : Cp} (hc : isHigh c.val = true) (hd : isLow d.val = true) (s : Str) :
    mend (c :: d :: s) = joinPair c.val d.val :: mend s := by
  rw [mend_cons_cons, if_pos ⟨hc, hd⟩]

/-- A string without surrogates comes back as it is. -/
theorem mend_eq {s : Str} (h : s.any isSurrogate = false) : mend s = s := by
  induction s with
  | nil => rfl
  | cons c s ih =>
    rw [List.any_cons, Bool.or_eq_false_iff] at h
    have hc : isHigh c.val = false := by
      have := h.1
      simp only [isSurrogate, isHigh, Bool.and_eq_false_iff, decide_eq_false_iff_not] at this ⊢
      omega
    rw [mend_cons_of_not_high hc, ih h.2]

theorem joinPair_not_surrogate (hi lo : ℕ) (h : isHigh hi = true) (h' : isLow lo = true) :
    isHigh (joinPair hi lo).val = false ∧ isLow (joinPair hi lo).val = false := by
  simp only [isHigh, isLow, Bool.and_eq_true, Bool.and_eq_false_iff, decide_eq_true_eq,
    decide_eq_false_iff_not] at h h' ⊢
  have hval : (joinPair hi lo).val = 0x10000 + (hi - 0xD800) * 0x400 + (lo - 0xDC00) := by
    rw [joinPair, point]
    exact Nat.mod_eq_of_lt (by omega)
  omega

theorem mend_head {d : Cp} (hd : isLow d.val = false) (s : Str) :
    ∃ e t, mend (d :: s) = e :: t ∧ isLow e.val = false := by
  cases s with
  | nil => exact ⟨d, [], rfl, hd⟩
  | cons e s =>
    rw [mend_cons_cons]
    split_ifs with hpair
    · exact ⟨_, _, rfl, (joinPair_not_surrogate _ _ hpair.1 hpair.2).2⟩
    · exact ⟨d, _, rfl, hd⟩

/-- What was mended stays as it is. -/
theorem mend_mend (s : Str) : mend (mend s) = mend s := by
  fun_induction mend s with
  | case1 => rfl
  | case2 c => rfl
  | case3 c d s hpair ih =>
    rw [mend_cons_of_not_high (joinPair_not_surrogate _ _ hpair.1 hpair.2).1, ih]
  | case4 c d s hpair ih =>
    by_cases hc : isHigh c.val = true
    · have hd : isLow d.val = false := by
        by_contra hlow
        exact hpair ⟨hc, by simpa using hlow⟩
      obtain ⟨e, t, he, hlow⟩ := mend_head hd s
      rw [he] at ih ⊢
      rw [mend_cons_of_not_low c hlow, ih]
    · rw [mend_cons_of_not_high (by simpa using hc), ih]

theorem point_val (c : Cp) : point c.val = c := Fin.ext (Nat.mod_eq_of_lt c.isLt)

/-- Four digits are read as their number, inside an escape that starts here. -/
theorem scanStr_hex4 {n : ℕ} (h : n < 0x10000) (rest : Str) :
    scanStr .plain (txt "\\u" ++ hex4 n ++ rest) =
      if isHigh n then scanStr (.high n) rest else emit (point n) (scanStr .plain rest) := by
  have htext : txt "\\u" ++ hex4 n ++ rest = cp '\\' :: cp 'u' :: hexDigit (n / 4096) ::
      hexDigit (n / 256 % 16) :: hexDigit (n / 16 % 16) :: hexDigit (n % 16) :: rest := rfl
  have hsum : (((0 * 16 + n / 4096) * 16 + n / 256 % 16) * 16 + n / 16 % 16) * 16 + n % 16 = n := by
    omega
  rw [htext, scanStr_plain_cons, if_neg (by decide), if_pos rfl, scanStr_esc_cons, if_pos rfl,
    scanStr_hex_more (hexVal_hexDigit _ (by omega)),
    scanStr_hex_more (hexVal_hexDigit _ (by omega)),
    scanStr_hex_more (hexVal_hexDigit _ (by omega)), scanStr_hex_cons,
    hexVal_hexDigit _ (by omega), Option.bind_some]
  simp only [hsum, ne_eq, not_true_eq_false, if_false]

/-- The same after a high surrogate, which waits for its partner. -/
theorem scanStr_high_hex4 (k : ℕ) {n : ℕ} (h : n < 0x10000) (rest : Str) :
    scanStr (.high k) (txt "\\u" ++ hex4 n ++ rest) =
      if isLow n then emit (joinPair k n) (scanStr .plain rest)
      else if isHigh n then emit (point k) (scanStr (.high n) rest)
      else emit (point k) (emit (point n) (scanStr .plain rest)) := by
  have htext : txt "\\u" ++ hex4 n ++ rest = cp '\\' :: cp 'u' :: hexDigit (n / 4096) ::
      hexDigit (n / 256 % 16) :: hexDigit (n / 16 % 16) :: hexDigit (n % 16) :: rest := rfl
  have hsum : (((0 * 16 + n / 4096) * 16 + n / 256 % 16) * 16 + n / 16 % 16) * 16 + n % 16 = n := by
    omega
  have hmore {c : Cp} {d : ℕ} (hd : hexVal c = some d) (left m : ℕ) (r : Str) :
      scanStr (.highHex k (left + 1) m) (c :: r) = scanStr (.highHex k left (m * 16 + d)) r := by
    rw [scanStr_highHex_cons, hd, Option.bind_some]
    simp
  rw [htext, scanStr_high_cons, if_neg (by decide), if_pos rfl, scanStr_highEsc_cons,
    if_pos rfl, hmore (hexVal_hexDigit _ (by omega)), hmore (hexVal_hexDigit _ (by omega)),
    hmore (hexVal_hexDigit _ (by omega)), scanStr_highHex_cons, hexVal_hexDigit _ (by omega),
    Option.bind_some]
  simp only [hsum, ne_eq, not_true_eq_false, if_false]

/-- A unit that is no high surrogate is read on its own. -/
theorem scanStr_escapeUnit {n : ℕ} (h : n < 0x10000) (hhigh : isHigh n = false) (rest : Str) :
    scanStr .plain (escapeUnit n ++ rest) = emit (point n) (scanStr .plain rest) := by
  unfold escapeUnit
  split_ifs with h1 h2 h3 h4 h5 h6 h7 h8
  · exact h1 ▸ scanStr_esc (by decide) (by decide) rest
  · exact h2 ▸ scanStr_esc (by decide) (by decide) rest
  · exact h3 ▸ scanStr_esc (by decide) (by decide) rest
  · exact h4 ▸ scanStr_esc (by decide) (by decide) rest
  · exact h5 ▸ scanStr_esc (by decide) (by decide) rest
  · exact h6 ▸ scanStr_esc (by decide) (by decide) rest
  · exact h7 ▸ scanStr_esc (by decide) (by decide) rest
  · rw [scanStr_hex4 h, if_neg (by simp [hhigh])]
  · have hval : (point n).val = n := Nat.mod_eq_of_lt (by omega)
    have hne {d : Cp} (hd : n ≠ d.val) : point n ≠ d := fun heq => hd (hval ▸ congrArg Fin.val heq)
    exact scanStr_plain (hne h1) (hne h2) (by omega) rest

/-- After a high surrogate, a unit that is no surrogate is read on its own. -/
theorem scanStr_high_escapeUnit (k : ℕ) {n : ℕ} (h : n < 0x10000) (hhigh : isHigh n = false)
    (hlow : isLow n = false) (rest : Str) :
    scanStr (.high k) (escapeUnit n ++ rest) =
      emit (point k) (emit (point n) (scanStr .plain rest)) := by
  have hesc {c e : Cp} (hu : c ≠ cp 'u') (he : unescape c = some e) :
      scanStr (.high k) (cp '\\' :: c :: rest) =
        emit (point k) (emit e (scanStr .plain rest)) := by
    rw [scanStr_high_cons, if_neg (by decide), if_pos rfl, scanStr_highEsc_cons, if_neg hu, he,
      Option.bind_some]
  unfold escapeUnit
  split_ifs with h1 h2 h3 h4 h5 h6 h7 h8
  · exact h1 ▸ hesc (by decide) (by decide)
  · exact h2 ▸ hesc (by decide) (by decide)
  · exact h3 ▸ hesc (by decide) (by decide)
  · exact h4 ▸ hesc (by decide) (by decide)
  · exact h5 ▸ hesc (by decide) (by decide)
  · exact h6 ▸ hesc (by decide) (by decide)
  · exact h7 ▸ hesc (by decide) (by decide)
  · rw [scanStr_high_hex4 k h, if_neg (by simp [hlow]), if_neg (by simp [hhigh])]
  · have hval : (point n).val = n := Nat.mod_eq_of_lt (by omega)
    have hne {d : Cp} (hd : n ≠ d.val) : point n ≠ d := fun heq => hd (hval ▸ congrArg Fin.val heq)
    change scanStr (.high k) (point n :: rest) = _
    rw [scanStr_high_cons, if_neg (hne h1), if_neg (hne h2), if_neg (by omega)]

/-- The units of a surrogate are written with four digits. -/
theorem escapeUnit_surrogate {n : ℕ} (h : isHigh n = true ∨ isLow n = true) :
    escapeUnit n = txt "\\u" ++ hex4 n := by
  have hlarge : 0xD800 ≤ n := by
    simp only [isHigh, isLow, Bool.and_eq_true, decide_eq_true_eq] at h
    omega
  unfold escapeUnit
  rw [if_neg (by omega), if_neg (by omega), if_neg (by omega), if_neg (by omega), if_neg (by omega),
    if_neg (by omega), if_neg (by omega), if_pos (by omega)]

/-- The two units of a character beyond the basic plane. -/
theorem halves (c : Cp) (h : ¬c.val < 0x10000) :
    isHigh (0xD800 + (c.val - 0x10000) / 0x400) = true ∧
      isLow (0xDC00 + (c.val - 0x10000) % 0x400) = true ∧
      joinPair (0xD800 + (c.val - 0x10000) / 0x400) (0xDC00 + (c.val - 0x10000) % 0x400) = c := by
  have hc := c.isLt
  refine ⟨isHigh_lead c h, ?_, ?_⟩
  · simp only [isLow, Bool.and_eq_true, decide_eq_true_eq]
    omega
  · have hval : 0x10000 + (0xD800 + (c.val - 0x10000) / 0x400 - 0xD800) * 1024 +
        (0xDC00 + (c.val - 0x10000) % 0x400 - 0xDC00) = c.val := by omega
    rw [joinPair, hval, point_val]

/-- A written string is read back mended, from the start and after a high surrogate. -/
theorem scanStr_units (s rest : Str) :
    scanStr .plain ((units s).flatMap escapeUnit ++ cp '"' :: rest) = some (mend s, rest) ∧
      ∀ k : Cp, isHigh k.val = true →
        scanStr (.high k.val) ((units s).flatMap escapeUnit ++ cp '"' :: rest) =
          some (mend (k :: s), rest) := by
  induction s with
  | nil =>
    refine ⟨rfl, fun k _ => ?_⟩
    have hnil : (units []).flatMap escapeUnit ++ cp '"' :: rest = cp '"' :: rest := rfl
    rw [hnil, scanStr_high_cons, if_pos rfl, point_val]
    rfl
  | cons c s ih =>
    obtain ⟨hplain, hafter⟩ := ih
    by_cases hsmall : c.val < 0x10000
    · rw [units_small hsmall, List.flatMap_cons, List.append_assoc]
      by_cases hhigh : isHigh c.val = true
      · have hlow : isLow c.val = false := by
          simp only [isHigh, isLow, Bool.and_eq_true, decide_eq_true_eq, Bool.and_eq_false_iff,
            decide_eq_false_iff_not] at hhigh ⊢
          omega
        rw [escapeUnit_surrogate (.inl hhigh)]
        refine ⟨?_, fun k _ => ?_⟩
        · rw [scanStr_hex4 hsmall, if_pos hhigh, hafter c hhigh]
        · rw [scanStr_high_hex4 _ hsmall, if_neg (by simp [hlow]), if_pos hhigh, hafter c hhigh,
            mend_cons_of_not_low k hlow, point_val]
          rfl
      · rw [Bool.not_eq_true] at hhigh
        refine ⟨?_, fun k hk => ?_⟩
        · rw [scanStr_escapeUnit hsmall hhigh, hplain, mend_cons_of_not_high hhigh, point_val]
          rfl
        · by_cases hlow : isLow c.val = true
          · rw [escapeUnit_surrogate (.inr hlow), scanStr_high_hex4 _ hsmall, if_pos hlow, hplain,
              mend_pair hk hlow]
            rfl
          · rw [Bool.not_eq_true] at hlow
            rw [scanStr_high_escapeUnit _ hsmall hhigh hlow, hplain, mend_cons_of_not_low k hlow,
              mend_cons_of_not_high hhigh, point_val, point_val]
            rfl
    · obtain ⟨hlead, htrail, hjoin⟩ := halves c hsmall
      have hhigh : isHigh c.val = false := by
        simp only [isHigh, Bool.and_eq_false_iff, decide_eq_false_iff_not]
        omega
      have hlow : isLow c.val = false := by
        simp only [isLow, Bool.and_eq_false_iff, decide_eq_false_iff_not]
        omega
      have hnotLow : isLow (0xD800 + (c.val - 0x10000) / 0x400) = false := by
        have hc := c.isLt
        simp only [isLow, Bool.and_eq_false_iff, decide_eq_false_iff_not]
        omega
      have hc := c.isLt
      rw [units_large hsmall, List.flatMap_cons, List.flatMap_cons, List.append_assoc,
        List.append_assoc, escapeUnit_surrogate (.inl hlead), escapeUnit_surrogate (.inr htrail)]
      refine ⟨?_, fun k _ => ?_⟩
      · rw [scanStr_hex4 (by omega), if_pos hlead, scanStr_high_hex4 _ (by omega), if_pos htrail,
          hplain, hjoin, mend_cons_of_not_high hhigh]
        rfl
      · rw [scanStr_high_hex4 _ (by omega), if_neg (by simp [hnotLow]), if_pos hlead,
          scanStr_high_hex4 _ (by omega), if_pos htrail, hplain, hjoin,
          mend_cons_of_not_low k hlow, mend_cons_of_not_high hhigh, point_val]
        rfl

theorem ascii_of_all {s : Str} (h : s.all (fun c => c.val < 128) = true) :
    ∀ c ∈ s, c.val < 128 := fun c hc => by simpa using List.all_eq_true.mp h c hc

theorem dumpAscii_ascii (s : Str) : ∀ c ∈ dumpAscii s, c.val < 128 := by
  have hhex : ∀ n < 16, (hexDigit n).val < 128 := by decide
  have hunit {n : ℕ} (hn : n < 0x10000) : ∀ c ∈ escapeUnit n, c.val < 128 := by
    unfold escapeUnit
    split_ifs with h1 h2 h3 h4 h5 h6 h7 h8
    iterate 7 exact ascii_of_all (by decide)
    · intro c hc
      rcases List.mem_append.mp hc with hc | hc
      · exact ascii_of_all (by decide) c hc
      · simp only [hex4, List.mem_cons, List.not_mem_nil, or_false] at hc
        rcases hc with rfl | rfl | rfl | rfl <;> exact hhex _ (by omega)
    · intro c hc
      rw [List.mem_singleton.mp hc]
      exact (Nat.mod_le n _).trans_lt (by omega)
  intro c hc
  simp only [dumpAscii, List.cons_append, List.mem_cons, List.mem_append, List.mem_flatMap,
    List.not_mem_nil, or_false] at hc
  rcases hc with rfl | ⟨n, hn, hc⟩ | rfl
  · decide
  · exact hunit (units_lt n hn) c hc
  · decide

/-! ### Values -/

section
variable [Host]

/-- The text is read as the value, whatever stops it, where so many containers may be opened. -/
structure Reads (depth : ℕ) (t : Str) (v : Json) : Prop where
  head : ∃ c s, t = c :: s ∧ isWs c = false ∧ c ≠ cp ']'
  scan : ∀ fuel room rest, t.length < fuel → depth ≤ room → Stops rest →
    scanOnce fuel room (t ++ rest) = .ok (v, rest)

theorem reads_dumpAscii (s : Str) : Reads 0 (dumpAscii s) (.str (mend s)) where
  head := ⟨cp '"', _, rfl, by decide, by decide⟩
  scan fuel room rest hfuel _ _ := by
    obtain ⟨fuel, rfl⟩ : ∃ f, fuel = f + 1 := ⟨fuel - 1, by omega⟩
    have htext : dumpAscii s ++ rest =
        cp '"' :: ((units s).flatMap escapeUnit ++ cp '"' :: rest) := by simp [dumpAscii]
    rw [htext, scanOnce.eq_def]
    simp only [if_true, (scanStr_units s rest).1]

theorem reads_number {t : Str} {v : Json} (h : scanNumber t = .ok (v, [])) : Reads 0 t v where
  head := by
    cases t with
    | nil => simp [scanNumber, integral] at h
    | cons c s =>
      have hopens := opens_numeric ((scanNumber_head h).imp_right And.left)
      exact ⟨c, s, rfl, hopens.1, hopens.2.1⟩
  scan fuel room rest hfuel _ hrest := by
    obtain ⟨fuel, rfl⟩ : ∃ f, fuel = f + 1 := ⟨fuel - 1, by omega⟩
    exact scanOnce_number h hrest fuel room

theorem reads_int {n : ℤ} (h : (natStr n.natAbs).length ≤ MAX_INT_DIGITS) :
    Reads 0 (intStr n) (.int n) := reads_number (scanNumber_intStr h)

theorem reads_bool (b : Bool) : Reads 0 (if b then txt "true" else txt "false") (.bool b) where
  head := by
    cases b
    · exact ⟨cp 'f', _, rfl, by decide, by decide⟩
    · exact ⟨cp 't', _, rfl, by decide, by decide⟩
  scan fuel room rest hfuel _ _ := by
    obtain ⟨fuel, rfl⟩ : ∃ f, fuel = f + 1 := ⟨fuel - 1, by omega⟩
    cases b <;> rfl

theorem Reads.mono {depth depth' : ℕ} {t : Str} {v : Json} (h : Reads depth t v)
    (hle : depth ≤ depth') : Reads depth' t v where
  head := h.head
  scan fuel room rest hfuel hroom := h.scan fuel room rest hfuel (hle.trans hroom)

end

/-! ### Separators -/

/-- Whitespace. -/
def Blank (w : Str) : Prop := ∀ c ∈ w, isWs c = true

theorem blank_nil : Blank [] := List.forall_mem_nil _

theorem blank_space : Blank (txt " ") := List.all_eq_true.mp (by decide)

/-- The whitespace of an array or object: after it opens, after a comma, after a colon and before
it closes. -/
structure Layout where
  lead : Str
  gap : Str
  space : Str
  pad : Str
  blank_lead : Blank lead
  blank_gap : Blank gap
  blank_space : Blank space
  blank_pad : Blank pad

/-- `separators=(",", ":")`. -/
def Layout.compact : Layout := ⟨[], [], [], [], blank_nil, blank_nil, blank_nil, blank_nil⟩

/-- `json.dumps` as it is. -/
def Layout.plain : Layout where
  lead := []
  gap := txt " "
  space := txt " "
  pad := []
  blank_lead := blank_nil
  blank_gap := JsonText.blank_space
  blank_space := JsonText.blank_space
  blank_pad := blank_nil

/-- Texts behind each other, with a comma and a gap between two. -/
def joined (gap : Str) : List Str → Str
  | [] => []
  | [t] => t
  | t :: ts => t ++ cp ',' :: (gap ++ joined gap ts)

variable {gap : Str} (l : Layout)

theorem joined_cons (t : Str) {ts : List Str} (h : ts ≠ []) :
    joined gap (t :: ts) = t ++ cp ',' :: (gap ++ joined gap ts) := by
  cases ts with
  | nil => exact absurd rfl h
  | cons t' ts => rfl

theorem joined_head {c : Cp} {t s : Str} (h : t = c :: s) (ts : List Str) :
    ∃ u, joined gap (t :: ts) = c :: u := by
  cases ts with
  | nil => exact ⟨s, h⟩
  | cons t' ts => exact ⟨_, by rw [joined_cons t (by simp), h, List.cons_append]⟩

theorem skipWs_blank (hgap : Blank gap) {c : Cp} (hc : isWs c = false) (s : Str) :
    skipWs (gap ++ c :: s) = c :: s := by
  rw [skipWs, List.dropWhile_append_of_pos hgap]
  exact skipWs_opens hc s

theorem stops_blank (hgap : Blank gap) {c : Cp} (hc : isNumeric c = false) (s : Str) :
    Stops (gap ++ c :: s) := by
  have hblank : ∀ d : Cp, isWs d = true → isNumeric d = false := by
    intro d hd
    simp only [isWs, Bool.or_eq_true, beq_iff_eq] at hd
    rcases hd with ((rfl | rfl) | rfl) | rfl <;> decide
  cases gap with
  | nil => exact stops_cons hc s
  | cons d gap => exact stops_cons (hblank d (hgap d List.mem_cons_self)) _

theorem blank_ascii {w : Str} (h : Blank w) : ∀ c ∈ w, c.val < 128 := by
  intro c hc
  have hws := h c hc
  simp only [isWs, Bool.or_eq_true, beq_iff_eq] at hws
  rcases hws with ((rfl | rfl) | rfl) | rfl <;> decide

theorem joined_ascii (hgap : Blank gap) {ts : List Str} (h : ∀ t ∈ ts, ∀ c ∈ t, c.val < 128) :
    ∀ c ∈ joined gap ts, c.val < 128 := by
  induction ts with
  | nil => exact nofun
  | cons t ts ih =>
    obtain ⟨ht, hts⟩ := List.forall_mem_cons.mp h
    cases ts with
    | nil => exact ht
    | cons t' ts =>
      rw [joined_cons t (by simp)]
      simp only [List.forall_mem_append, List.forall_mem_cons]
      exact ⟨ht, by decide, blank_ascii hgap, ih hts⟩

section
variable [Host]

/-! ### Arrays -/

/-- What has been written item by item is read back so. -/
theorem scanElements_joined {depth : ℕ} {ts : List Str} {vs : List Json}
    (h : List.Forall₂ (Reads depth) ts vs) (hne : ts ≠ []) (acc : List Json) (fuel room : ℕ)
    (hfuel : (joined l.gap ts).length + 1 < fuel) (hroom : depth ≤ room) (rest : Str) :
    scanElements fuel room acc (joined l.gap ts ++ (l.pad ++ cp ']' :: rest)) =
      .ok (.arr (acc ++ vs), rest) := by
  induction h generalizing acc fuel with
  | nil => exact absurd rfl hne
  | @cons t v ts vs ht hts ih =>
    obtain ⟨fuel, rfl⟩ : ∃ f, fuel = f + 1 := ⟨fuel - 1, by omega⟩
    cases hts with
    | nil =>
      have hval := ht.scan fuel room (l.pad ++ cp ']' :: rest) (by simpa [joined] using hfuel) hroom
        (stops_blank l.blank_pad (by decide) rest)
      rw [joined, scanElements.eq_def]
      simp only [hval, skipWs_blank l.blank_pad (show isWs (cp ']') = false by decide), past_self]
    | @cons t' v' ts vs ht' hts =>
      obtain ⟨c, s, hc, hws, -⟩ := ht'.head
      obtain ⟨u, hu⟩ : ∃ u, joined l.gap (t' :: ts) = c :: u := joined_head hc ts
      rw [joined_cons t (by simp)] at hfuel ⊢
      simp only [List.length_append, List.length_cons] at hfuel
      have hval := ht.scan fuel room
        (cp ',' :: (l.gap ++ joined l.gap (t' :: ts)) ++ (l.pad ++ cp ']' :: rest)) (by omega) hroom
        (stops_cons (by decide) _)
      have hrest := ih (by simp) (acc ++ [v]) fuel (by omega)
      rw [scanElements.eq_def]
      simp only [List.append_assoc, List.cons_append, hu] at hval hrest ⊢
      simp only [hval, skipWs_opens (show isWs (cp ',') = false by decide),
        past_ne (show cp ',' ≠ cp ']' by decide), past_self, skipWs_blank l.blank_gap hws, hrest,
        List.nil_append]

/-- `[` … `]`. -/
def arrayText (ts : List Str) : Str :=
  cp '[' :: (l.lead ++ (joined l.gap ts ++ (l.pad ++ [cp ']'])))

omit [Host] in
theorem arrayText_ascii {ts : List Str} (h : ∀ t ∈ ts, ∀ c ∈ t, c.val < 128) :
    ∀ c ∈ arrayText l ts, c.val < 128 := by
  simp only [arrayText, List.forall_mem_cons, List.forall_mem_append]
  exact ⟨by decide, blank_ascii l.blank_lead, joined_ascii l.blank_gap h, blank_ascii l.blank_pad,
    by decide, nofun⟩

theorem reads_array {depth : ℕ} {ts : List Str} {vs : List Json}
    (h : List.Forall₂ (Reads depth) ts vs) (hne : ts ≠ []) :
    Reads (depth + 1) (arrayText l ts) (.arr vs) where
  head := ⟨cp '[', _, rfl, by decide, by decide⟩
  scan fuel room rest hfuel hroom _ := by
    obtain ⟨fuel, rfl⟩ : ∃ f, fuel = f + 1 := ⟨fuel - 1, by omega⟩
    obtain ⟨room, rfl⟩ : ∃ r, room = r + 1 := ⟨room - 1, by omega⟩
    have hscan := scanElements_joined l h hne [] fuel room (by
      simp only [arrayText, List.length_cons, List.length_append] at hfuel
      omega) (by omega) rest
    cases h with
    | nil => exact absurd rfl hne
    | @cons t v ts vs ht hts =>
      obtain ⟨c, s, hc, hws, hclose⟩ := ht.head
      obtain ⟨u, hu⟩ : ∃ u, joined l.gap (t :: ts) = c :: u := joined_head hc ts
      rw [arrayText, scanOnce.eq_def]
      simp only [List.cons_append, List.append_assoc, List.nil_append,
        if_neg (show cp '[' ≠ cp '"' by decide), if_neg (show cp '[' ≠ cp '{' by decide), if_true,
        hu, skipWs_blank l.blank_lead hws, past_ne hclose] at hscan ⊢
      exact hscan

theorem reads_empty_array : Reads 1 (txt "[]") (.arr []) where
  head := ⟨cp '[', _, rfl, by decide, by decide⟩
  scan fuel room rest hfuel hroom _ := by
    obtain ⟨fuel, rfl⟩ : ∃ f, fuel = f + 1 := ⟨fuel - 1, by omega⟩
    obtain ⟨room, rfl⟩ : ∃ r, room = r + 1 := ⟨room - 1, by omega⟩
    rfl

/-! ### Objects -/

/-- A member of an object, with the text its value is written as. -/
structure Member where
  name : Str
  token : Str
  value : Json

def Member.text (m : Member) : Str := dumpAscii m.name ++ cp ':' :: (l.space ++ m.token)

/-- `{` … `}`. -/
def objectText (ms : List Member) : Str :=
  cp '{' :: (l.lead ++ (joined l.gap (ms.map (Member.text l)) ++ (l.pad ++ [cp '}'])))

omit [Host] in
theorem objectText_ascii {ms : List Member} (h : ∀ m ∈ ms, ∀ c ∈ m.token, c.val < 128) :
    ∀ c ∈ objectText l ms, c.val < 128 := by
  have hmember : ∀ t ∈ ms.map (Member.text l), ∀ c ∈ t, c.val < 128 := by
    intro t ht
    obtain ⟨m, hm, rfl⟩ := List.mem_map.mp ht
    simp only [Member.text, List.forall_mem_append, List.forall_mem_cons]
    exact ⟨dumpAscii_ascii _, by decide, blank_ascii l.blank_space, h m hm⟩
  simp only [objectText, List.forall_mem_cons, List.forall_mem_append]
  exact ⟨by decide, blank_ascii l.blank_lead, joined_ascii l.blank_gap hmember,
    blank_ascii l.blank_pad, by decide, nofun⟩

/-- A member that is read as it was meant. -/
structure Member.Reads (depth : ℕ) (m : Member) : Prop where
  name : mend m.name = m.name
  value : JsonText.Reads depth m.token m.value

omit [Host] in
theorem scanKey_dumpAscii (key rest : Str) :
    scanKey (dumpAscii key ++ cp ':' :: rest) = some (mend key, skipWs rest) := by
  have hcolon : skipWs (cp ':' :: rest) = cp ':' :: rest := skipWs_opens (by decide) rest
  have htext : dumpAscii key ++ cp ':' :: rest =
      cp '"' :: ((units key).flatMap escapeUnit ++ cp '"' :: cp ':' :: rest) := by simp [dumpAscii]
  rw [htext, scanKey]
  simp only [if_true, (scanStr_units key _).1, Option.bind_some, hcolon, past_self, Option.map_some]

theorem scanKey_text {depth : ℕ} {m : Member} (h : m.Reads depth)
    (rest : Str) : scanKey (m.text l ++ rest) = some (m.name, m.token ++ rest) := by
  obtain ⟨c, s, hc, hws, -⟩ := h.value.head
  rw [Member.text, List.append_assoc, List.cons_append, scanKey_dumpAscii, h.name,
    List.append_assoc, hc, List.cons_append, skipWs_blank l.blank_space hws]

omit [Host] in
theorem text_head (m : Member) : ∃ s, m.text l = cp '"' :: s := ⟨_, rfl⟩

/-- What has been written member by member is read back so. -/
theorem scanMembers_joined {depth : ℕ} {ms : List Member} (h : ∀ m ∈ ms, m.Reads depth)
    (hne : ms ≠ []) (acc : Dict) (hnames : (acc.map Prod.fst ++ ms.map Member.name).Nodup)
    (fuel room : ℕ) (hfuel : (joined l.gap (ms.map (Member.text l))).length < fuel)
    (hroom : depth ≤ room) (rest : Str) :
    scanMembers fuel room acc (joined l.gap (ms.map (Member.text l)) ++ (l.pad ++ cp '}' :: rest)) =
      .ok (.obj (acc ++ ms.map fun m => (m.name, m.value)), rest) := by
  induction ms generalizing acc fuel with
  | nil => exact absurd rfl hne
  | cons m ms ih =>
    obtain ⟨hm, hms⟩ := List.forall_mem_cons.mp h
    obtain ⟨fuel, rfl⟩ : ∃ f, fuel = f + 1 := ⟨fuel - 1, by omega⟩
    have hnew : m.name ∉ acc.map Prod.fst := fun hmem =>
      (List.nodup_append.mp hnames).2.2 _ hmem _ (by simp) rfl
    have htoken : m.token.length < (m.text l).length := by
      simp only [Member.text, List.length_append, List.length_cons]
      omega
    cases ms with
    | nil =>
      simp only [List.map_cons, List.map_nil, joined] at hfuel ⊢
      have hval := hm.value.scan fuel room (l.pad ++ cp '}' :: rest) (by omega) hroom
        (stops_blank l.blank_pad (by decide) rest)
      rw [scanMembers.eq_def]
      simp only [scanKey_text l hm, hval, past_self, set_append acc _ hnew,
        skipWs_blank l.blank_pad (show isWs (cp '}') = false by decide)]
    | cons m' ms =>
      obtain ⟨s, hs⟩ := text_head l m'
      obtain ⟨u, hu⟩ : ∃ u, joined l.gap ((m' :: ms).map (Member.text l)) = cp '"' :: u :=
        joined_head hs _
      rw [List.map_cons, joined_cons _ (by simp)] at hfuel ⊢
      simp only [List.length_append, List.length_cons] at hfuel
      have hval := hm.value.scan fuel room (cp ',' ::
        (l.gap ++ joined l.gap ((m' :: ms).map (Member.text l))) ++ (l.pad ++ cp '}' :: rest))
        (by omega) hroom (stops_cons (by decide) _)
      have hrest := ih hms (by simp) (acc ++ [(m.name, m.value)]) (by simpa using hnames) fuel
        (by omega)
      rw [scanMembers.eq_def]
      simp only [List.append_assoc, List.cons_append, hu] at hval hrest ⊢
      simp only [scanKey_text l hm, hval, skipWs_opens (show isWs (cp ',') = false by decide),
        past_ne (show cp ',' ≠ cp '}' by decide), past_self, set_append acc _ hnew,
        skipWs_blank l.blank_gap (show isWs (cp '"') = false by decide), hrest]
      simp

/-- An object that was written is read back, whatever whitespace follows. -/
theorem loads_object {depth : ℕ} (hdepth : depth < Host.nestLimit) {ms : List Member}
    (h : ∀ m ∈ ms, m.Reads depth) (hne : ms ≠ []) (hnames : (ms.map Member.name).Nodup)
    {after : Str} (hafter : Blank after) :
    loads (objectText l ms ++ after) =
      .ok (.obj (ms.map fun m => (m.name, m.value))) := by
  obtain ⟨room, hroom⟩ : ∃ room, Host.nestLimit = room + 1 :=
    ⟨Host.nestLimit - 1, by omega⟩
  have hscan := scanMembers_joined l h hne [] hnames
    (2 * (objectText l ms ++ after).length + 1) room (by
      simp only [objectText, List.length_cons, List.length_append]
      omega) (by omega) after
  obtain ⟨m, ms', rfl⟩ := List.exists_cons_of_ne_nil hne
  obtain ⟨s, hs⟩ := text_head l m
  obtain ⟨u, hu⟩ : ∃ u, joined l.gap ((m :: ms').map (Member.text l)) = cp '"' :: u :=
    joined_head hs _
  have hend : skipWs after = [] := List.dropWhile_eq_nil_iff.mpr hafter
  have hopen : skipWs (objectText l (m :: ms') ++ after) =
      objectText l (m :: ms') ++ after := skipWs_opens (by decide) _
  rw [loads, if_neg (by rw [objectText, List.cons_append, List.head?_cons]; decide), hroom, hopen,
    scanOnce.eq_def]
  simp only [objectText, List.cons_append, List.append_assoc, List.nil_append, hu,
    if_neg (show cp '{' ≠ cp '"' by decide), if_true,
    skipWs_blank l.blank_lead (show isWs (cp '"') = false by decide),
    past_ne (show cp '"' ≠ cp '}' by decide)] at hscan ⊢
  rw [hscan]
  simp only [hend, if_true, List.map_cons]

end

end AskFable.Python.JsonText

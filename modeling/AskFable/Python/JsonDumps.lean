import AskFable.Python.JsonText

/-!
# Writing JSON and reading it back

`json.dumps` with compact separators, `ensure_ascii=False` and `allow_nan=False`, and its
inverse: `json.loads` returns the value that was written, as far as it nests no deeper than
the reader goes.
-/
namespace AskFable.Python.JsonText
open AskFable.Text AskFable.Python

/-- The texts of the floats that have no JSON. -/
def NON_FINITE : List Str := [txt "nan", txt "inf", txt "-inf"]

/-- The parts of a container, comma separated. -/
def commas : List Str → Str
  | [] => []
  | [t] => t
  | t :: ts => t ++ cp ',' :: commas ts

mutual

/-- `json.dumps(…, separators=(",", ":"), ensure_ascii=False, allow_nan=False)`; `none` is
its `ValueError`, for a float that is not finite or an integer too long to print. -/
def dumps : Json → Option Str
  | .null => some (txt "null")
  | .bool b => some (if b then txt "true" else txt "false")
  | .int n => if MAX_INT_DIGITS < (natStr n.natAbs).length then none else some (intStr n)
  | .float shown => if NON_FINITE.contains shown then none else some shown
  | .str s => some (dumpStr s)
  | .arr xs => (dumpElements xs).map fun ts => cp '[' :: commas ts ++ [cp ']']
  | .obj items => (dumpMembers items).map fun ts => cp '{' :: commas ts ++ [cp '}']

def dumpElements : List Json → Option (List Str)
  | [] => some []
  | x :: xs => (dumps x).bind fun t => (dumpElements xs).map (t :: ·)

def dumpMembers : List (Str × Json) → Option (List Str)
  | [] => some []
  | (key, x) :: items => (dumps x).bind fun t =>
      (dumpMembers items).map ((dumpStr key ++ cp ':' :: t) :: ·)

end

example : dumps (.obj [(txt "a", .arr [.int (-1), .null])]) =
    some (txt "\x7b\"a\":[-1,null]\x7d") := by decide

/-! ### Values of the language -/

mutual

/-- The containers on the longest way into a value. -/
def depth : Json → ℕ
  | .arr xs => depthAll xs + 1
  | .obj items => depthItems items + 1
  | _ => 0

def depthAll : List Json → ℕ
  | [] => 0
  | x :: xs => max (depth x) (depthAll xs)

def depthItems : List (Str × Json) → ℕ
  | [] => 0
  | (_, x) :: items => max (depth x) (depthItems items)

end

section
variable [Host]

mutual

/-- What a Python value has by itself: the keys of each dict differ, and a float reads its
own `repr`. -/
def Held : Json → Prop
  | .float shown => NON_FINITE.contains shown = true ∨ scanNumber shown = .ok (.float shown, [])
  | .arr xs => HeldAll xs
  | .obj items => (items.map Prod.fst).Nodup ∧ HeldItems items
  | _ => True

def HeldAll : List Json → Prop
  | [] => True
  | x :: xs => Held x ∧ HeldAll xs

def HeldItems : List (Str × Json) → Prop
  | [] => True
  | (_, x) :: items => Held x ∧ HeldItems items

end

end

/-! ### Numbers -/

theorem natOfDigits_natStr (n : ℕ) : natOfDigits (natStr n) = n := by
  induction n using Nat.strong_induction_on with
  | _ n ih =>
    rw [natStr_eq]
    split_ifs with h
    · simp only [natOfDigits, List.foldl_cons, List.foldl_nil, digitChar_val h]
      omega
    · have hdiv := ih (n / 10) (by omega)
      have hmod := digitChar_val (show n % 10 < 10 by omega)
      unfold natOfDigits at hdiv ⊢
      simp only [List.foldl_append, List.foldl_cons, List.foldl_nil, hdiv, hmod]
      omega

/-- Only zero is written with a zero in front. -/
theorem natStr_zero_head {n : ℕ} {s : Str} (h : natStr n = cp '0' :: s) : s = [] := by
  induction n using Nat.strong_induction_on generalizing s with
  | _ n ih =>
    rw [natStr_eq] at h
    split_ifs at h with hn
    · exact (List.cons.inj h).2.symm
    · obtain ⟨c, t, hc⟩ := List.exists_cons_of_ne_nil (natStr_ne_nil (n / 10))
      rw [hc, List.cons_append] at h
      obtain ⟨rfl, rfl⟩ := List.cons.inj h
      have hnil := ih (n / 10) (by omega) hc
      have hzero := natOfDigits_natStr (n / 10)
      rw [hc, hnil] at hzero
      have : natOfDigits [cp '0'] = 0 := by decide
      omega

/-- The characters a number may go on with. -/
def isNumeric (c : Cp) : Bool :=
  isDigit c || c == cp '.' || c == cp 'e' || c == cp 'E' || c == cp '+' || c == cp '-'

/-- No number goes on into this text. -/
def Stops (rest : Str) : Prop := ∀ c, rest.head? = some c → isNumeric c = false

theorem takeWhile_digits {rest : Str} (h : Stops rest) (s : Str) :
    (s ++ rest).takeWhile isDigit = s.takeWhile isDigit ∧
      (s ++ rest).dropWhile isDigit = s.dropWhile isDigit ++ rest := by
  induction s with
  | nil =>
    cases rest with
    | nil => simp
    | cons c rest =>
      have hc := h c rfl
      simp only [isNumeric, Bool.or_eq_false_iff] at hc
      simp [hc.1.1.1.1.1]
  | cons c s ih =>
    by_cases hc : isDigit c = true
    · simp [hc, ih.1, ih.2]
    · simp [hc]

theorem fraction_append {rest : Str} (h : Stops rest) (s : Str) :
    fraction (s ++ rest) = ((fraction s).1, (fraction s).2 ++ rest) := by
  cases s with
  | nil =>
    cases rest with
    | nil => rfl
    | cons c rest =>
      have hc := h c rfl
      simp only [isNumeric, Bool.or_eq_false_iff, beq_eq_false_iff_ne] at hc
      simp [fraction, hc.1.1.1.1.2]
  | cons c s =>
    obtain ⟨htake, hdrop⟩ := takeWhile_digits h s
    simp only [List.cons_append, fraction, htake, hdrop]
    split_ifs <;> rfl

theorem integral_append {rest : Str} (h : Stops rest) (s : Str) :
    integral (s ++ rest) = ((integral s).1, (integral s).2 ++ rest) := by
  cases s with
  | nil =>
    cases rest with
    | nil => rfl
    | cons c rest =>
      have hc := h c rfl
      simp only [isNumeric, Bool.or_eq_false_iff] at hc
      have hzero : c ≠ cp '0' := by
        rintro rfl
        exact absurd hc.1.1.1.1.1 (by decide)
      simp [integral, hzero, hc.1.1.1.1.1]
  | cons c s =>
    obtain ⟨htake, hdrop⟩ := takeWhile_digits h (c :: s)
    simp only [List.cons_append] at htake hdrop
    simp only [List.cons_append, integral, htake, hdrop]
    split_ifs <;> rfl

/-- An optional sign is read the same. -/
theorem sign_append {p : Cp → Bool} (hp : ∀ c, p c = true → isNumeric c = true) {rest : Str}
    (h : Stops rest) (s : Str) :
    ((s ++ rest).take 1).filter p = (s.take 1).filter p ∧
      (s ++ rest).drop ((s.take 1).filter p).length = s.drop ((s.take 1).filter p).length ++ rest := by
  cases s with
  | nil =>
    cases rest with
    | nil => simp
    | cons c rest =>
      have hc : p c = false := by
        by_contra hpc
        have hnum := hp c (by simpa using hpc)
        rw [h c rfl] at hnum
        simp at hnum
      simp [hc]
  | cons c s => by_cases hc : p c = true <;> simp [hc]

theorem exponent_append {rest : Str} (h : Stops rest) (s : Str) :
    exponent (s ++ rest) = ((exponent s).1, (exponent s).2 ++ rest) := by
  cases s with
  | nil =>
    cases rest with
    | nil => rfl
    | cons c rest =>
      have hc := h c rfl
      simp only [isNumeric, Bool.or_eq_false_iff, beq_eq_false_iff_ne] at hc
      simp [exponent, hc.1.1.1.2, hc.1.1.2]
  | cons c s =>
    obtain ⟨hsign, hdrop⟩ := sign_append (p := fun d => d == cp '+' || d == cp '-') (fun d hd => by
      simp only [Bool.or_eq_true] at hd
      rcases hd with hd | hd <;> simp [isNumeric, hd]) h s
    simp only [List.cons_append, exponent, hsign, hdrop, (takeWhile_digits h _).1,
      (takeWhile_digits h _).2]
    split_ifs <;> simp

section
variable [Host]

/-- A number is read the same before a text that cannot continue it. -/
theorem scanNumber_append {s r rest : Str} {v : Json} (h : scanNumber s = .ok (v, r))
    (hrest : Stops rest) : scanNumber (s ++ rest) = .ok (v, r ++ rest) := by
  obtain ⟨hsign, hdrop⟩ := sign_append (p := (· == cp '-'))
    (fun c hc => by simp [isNumeric, hc]) hrest s
  unfold scanNumber at h ⊢
  dsimp only at h ⊢
  rw [hsign, hdrop, integral_append hrest]
  dsimp only
  rw [fraction_append hrest]
  dsimp only
  rw [exponent_append hrest]
  dsimp only
  split_ifs at h ⊢ <;> simp_all

omit [Host] in
theorem integral_natStr (n : ℕ) : integral (natStr n) = (natStr n, []) := by
  have hdigits := natStr_digits n
  cases h : natStr n with
  | nil => exact absurd h (natStr_ne_nil n)
  | cons c s =>
    rw [h] at hdigits
    by_cases hc : c = cp '0'
    · simp only [integral, if_pos hc, natStr_zero_head (hc ▸ h)]
    · simp only [integral, if_neg hc, List.takeWhile_eq_self_iff.mpr hdigits,
        List.dropWhile_eq_nil_iff.mpr hdigits]

theorem scanNumber_intStr {n : ℤ} (h : (natStr n.natAbs).length ≤ MAX_INT_DIGITS) :
    scanNumber (intStr n) = .ok (.int n, []) := by
  have hne (m : ℕ) := natStr_ne_nil m
  have hsign (m : ℕ) : ((natStr m).take 1).filter (· == cp '-') = [] := by
    rw [List.filter_eq_nil_iff]
    intro c hc hminus
    have hdigit := natStr_digits m c (List.mem_of_mem_take hc)
    rw [beq_iff_eq] at hminus
    rw [hminus] at hdigit
    exact absurd hdigit (by decide)
  cases n with
  | ofNat m =>
    have hlen : ¬MAX_INT_DIGITS < (natStr m).length := by simpa using h
    simp [scanNumber, intStr, hsign, integral_natStr, hne, fraction, exponent, hlen,
      natOfDigits_natStr]
  | negSucc m =>
    have hlen : ¬MAX_INT_DIGITS < (natStr (m + 1)).length := by simpa using h
    simp [scanNumber, intStr, integral_natStr, hne, fraction, exponent, hlen,
      natOfDigits_natStr, Int.negSucc_eq]

/-! ### Values -/

omit [Host] in
theorem past_append (w rest : Str) : past w (w ++ rest) = some rest := by
  simp [past]

/-- A number starts with a digit or a sign. -/
theorem scanNumber_head {c : Cp} {s : Str} {r : Json × Str} (h : scanNumber (c :: s) = .ok r) :
    isDigit c = true ∨ c = cp '-' ∧ ∃ d t, s = d :: t ∧ isDigit d = true := by
  by_cases hc : isDigit c = true
  · exact .inl hc
  · have hintegral (x : Cp) (t : Str) (hx : isDigit x = false) : integral (x :: t) = ([], x :: t) := by
      have hzero : x ≠ cp '0' := by
        rintro rfl
        exact absurd hx (by decide)
      simp [integral, hzero, hx]
    by_cases hminus : c = cp '-'
    · refine .inr ⟨hminus, ?_⟩
      cases s with
      | nil => simp [scanNumber, hminus, integral] at h
      | cons d t =>
        refine ⟨d, t, rfl, ?_⟩
        by_contra hd
        simp [scanNumber, hminus, hintegral d t (by simpa using hd)] at h
    · simp [scanNumber, hminus, hintegral c s (by simpa using hc)] at h

/-- The text does not start like a number. -/
def wordlike : Str → Bool
  | x :: y :: _ => !isDigit x && (x != cp '-' || !isDigit y)
  | _ => false

/-- No word starts like a number. -/
theorem scanWord_number {c : Cp} {s : Str} {r : Json × Str} (h : scanNumber (c :: s) = .ok r) :
    scanWord (c :: s) = none := by
  have hwords : WORDS.all (fun w => wordlike w.1) = true := by decide
  rw [List.all_eq_true] at hwords
  rw [scanWord, List.findSome?_eq_none_iff]
  intro w hw
  have hlike := hwords w hw
  cases hword : w.1 with
  | nil => simp [hword, wordlike] at hlike
  | cons x t =>
    cases t with
    | nil => simp [hword, wordlike] at hlike
    | cons y t =>
      simp only [hword, wordlike, Bool.and_eq_true, Bool.not_eq_true', Bool.or_eq_true,
        bne_iff_ne, ne_eq] at hlike
      have hpast : past (x :: y :: t) (c :: s) = none := by
        rw [past, if_neg]
        intro hpre
        rw [List.isPrefixOf_iff_prefix] at hpre
        obtain ⟨u, hu⟩ := hpre
        obtain ⟨rfl, rfl⟩ := List.cons.inj hu
        rcases scanNumber_head h with hd | ⟨rfl, d, v, hs, hd⟩
        · rw [hlike.1] at hd
          simp at hd
        · obtain ⟨rfl, -⟩ := List.cons.inj hs
          rcases hlike.2 with hne | hnd
          · exact hne rfl
          · rw [hnd] at hd
            simp at hd
      rw [hpast, Option.map_none]

/-- What reads as a number is scanned as one. -/
theorem scanOnce_number {s rest : Str} {v : Json} (h : scanNumber s = .ok (v, []))
    (hrest : Stops rest) (fuel room : ℕ) :
    scanOnce (fuel + 1) room (s ++ rest) = .ok (v, rest) := by
  have happend := scanNumber_append h hrest
  cases s with
  | nil => simp [scanNumber, integral] at h
  | cons c s =>
    have hq : c ≠ cp '"' ∧ c ≠ cp '{' ∧ c ≠ cp '[' := by
      refine ⟨?_, ?_, ?_⟩ <;> rintro rfl <;>
        rcases scanNumber_head h with hd | ⟨hd, -⟩ <;> exact absurd hd (by decide)
    rw [List.cons_append] at happend ⊢
    rw [scanOnce.eq_def]
    simp only [if_neg hq.1, if_neg hq.2.1, if_neg hq.2.2, scanWord_number happend, happend,
      List.nil_append]

/-- No value ends or follows a container's close with this character. -/
def Opens (c : Cp) : Prop := isWs c = false ∧ c ≠ cp ']' ∧ c ≠ cp '}' ∧ c.val ≠ 0xFEFF

omit [Host] in
theorem opens_numeric {c : Cp} (h : isDigit c = true ∨ c = cp '-') : Opens c := by
  rcases h with hd | rfl
  · simp only [isDigit, Bool.and_eq_true, decide_eq_true_eq] at hd
    refine ⟨?_, ?_, ?_, by omega⟩
    · simp only [isWs, Bool.or_eq_false_iff, beq_eq_false_iff_ne, ne_eq]
      refine ⟨⟨⟨?_, ?_⟩, ?_⟩, ?_⟩ <;> rintro rfl <;> exact absurd hd (by decide)
    · rintro rfl
      exact absurd hd (by decide)
    · rintro rfl
      exact absurd hd (by decide)
  · exact ⟨by decide, by decide, by decide, by decide⟩

/-- A written number reads back as the number. -/
theorem dumps_number {v : Json} {t : Str} (h : dumps v = some t) (hheld : Held v)
    (hv : (∃ n, v = .int n) ∨ ∃ shown, v = .float shown) : scanNumber t = .ok (v, []) := by
  rcases hv with ⟨n, rfl⟩ | ⟨shown, rfl⟩
  · simp only [dumps] at h
    split_ifs at h with hlen
    rw [← Option.some.inj h]
    exact scanNumber_intStr (not_lt.mp hlen)
  · simp only [dumps] at h
    split_ifs at h with hfinite
    rw [← Option.some.inj h]
    exact hheld.resolve_left hfinite

/-- How a written value starts. -/
theorem dumps_head {v : Json} {t : Str} (h : dumps v = some t) (hheld : Held v) :
    ∃ c s, t = c :: s ∧ Opens c := by
  have hnumber (hv : (∃ n, v = .int n) ∨ ∃ shown, v = .float shown) :
      ∃ c s, t = c :: s ∧ Opens c := by
    have hscan := dumps_number h hheld hv
    cases t with
    | nil => simp [scanNumber, integral] at hscan
    | cons c s =>
      refine ⟨c, s, rfl, opens_numeric ?_⟩
      exact (scanNumber_head hscan).imp_right And.left
  cases v with
  | null =>
    rw [← Option.some.inj h]
    exact ⟨cp 'n', _, rfl, by decide, by decide, by decide, by decide⟩
  | bool b =>
    rw [← Option.some.inj h]
    cases b
    · exact ⟨cp 'f', _, rfl, by decide, by decide, by decide, by decide⟩
    · exact ⟨cp 't', _, rfl, by decide, by decide, by decide, by decide⟩
  | int n => exact hnumber (.inl ⟨n, rfl⟩)
  | float shown => exact hnumber (.inr ⟨shown, rfl⟩)
  | str s =>
    rw [← Option.some.inj h]
    exact ⟨cp '"', _, rfl, by decide, by decide, by decide, by decide⟩
  | arr xs =>
    obtain ⟨ts, -, rfl⟩ := Option.map_eq_some_iff.mp h
    exact ⟨cp '[', _, rfl, by decide, by decide, by decide, by decide⟩
  | obj items =>
    obtain ⟨ts, -, rfl⟩ := Option.map_eq_some_iff.mp h
    exact ⟨cp '{', _, rfl, by decide, by decide, by decide, by decide⟩

omit [Host] in
theorem skipWs_opens {c : Cp} (h : isWs c = false) (s : Str) : skipWs (c :: s) = c :: s := by
  simp [skipWs, h]

omit [Host] in
theorem stops_cons {c : Cp} (h : isNumeric c = false) (s : Str) : Stops (c :: s) := by
  intro d hd
  rw [← Option.some.inj hd]
  exact h

omit [Host] in
theorem scanKey_dumpStr (key rest : Str) :
    scanKey (dumpStr key ++ cp ':' :: rest) = some (key, skipWs rest) := by
  have hcolon : skipWs (cp ':' :: rest) = cp ':' :: rest := skipWs_opens (by decide) rest
  have hpast : past [cp ':'] (cp ':' :: rest) = some rest := past_append [cp ':'] rest
  simp only [dumpStr, List.cons_append, List.append_assoc, List.nil_append, scanKey, if_true,
    scanStr_flatMap, Option.bind_some, hcolon, hpast, Option.map_some]

omit [Host] in
theorem commas_cons (t : Str) {ts : List Str} (h : ts ≠ []) :
    commas (t :: ts) = t ++ cp ',' :: commas ts := by
  cases ts with
  | nil => exact absurd rfl h
  | cons t' ts => rfl

omit [Host] in
theorem commas_head {t s : Str} {c : Cp} (h : t = c :: s) (ts : List Str) :
    ∃ u, commas (t :: ts) = c :: u := by
  cases ts with
  | nil => exact ⟨s, h⟩
  | cons t' ts => exact ⟨s ++ cp ',' :: commas (t' :: ts), by rw [commas_cons t (by simp), h]; rfl⟩

omit [Host] in
theorem past_ne {c d : Cp} (h : c ≠ d) (s : Str) : past [d] (c :: s) = none := by
  simp [past, h.symm]

omit [Host] in
theorem past_self (c : Cp) (s : Str) : past [c] (c :: s) = some s := past_append [c] s

omit [Host] in
theorem set_append (acc : Dict) {key : Str} (v : Json) (h : key ∉ acc.map Prod.fst) :
    Dict.set acc key v = acc ++ [(key, v)] := by
  induction acc with
  | nil => rfl
  | cons p acc ih =>
    obtain ⟨a, x⟩ := p
    simp only [List.map_cons, List.mem_cons, not_or] at h
    rw [Dict.set, if_neg (Ne.symm h.1), ih h.2, List.cons_append]

mutual

/-- The reader takes a written value and leaves what follows. -/
theorem scanOnce_dumps (v : Json) {t : Str} (h : dumps v = some t) (hheld : Held v)
    (fuel room : ℕ) (hfuel : t.length ≤ fuel) (hroom : depth v ≤ room) {rest : Str}
    (hrest : Stops rest) : scanOnce fuel room (t ++ rest) = .ok (v, rest) := by
  obtain ⟨fuel, rfl⟩ : ∃ f, fuel = f + 1 := by
    obtain ⟨c, s, rfl, -⟩ := dumps_head h hheld
    exact ⟨fuel - 1, by simp at hfuel; omega⟩
  cases v with
  | null =>
    rw [← Option.some.inj h]
    rfl
  | bool b =>
    rw [← Option.some.inj h]
    cases b <;> rfl
  | int n => exact scanOnce_number (dumps_number h hheld (.inl ⟨n, rfl⟩)) hrest fuel room
  | float shown =>
    exact scanOnce_number (dumps_number h hheld (.inr ⟨shown, rfl⟩)) hrest fuel room
  | str s =>
    rw [← Option.some.inj h, dumpStr, scanOnce.eq_def]
    simp only [List.cons_append, List.append_assoc, List.nil_append, if_true, scanStr_flatMap]
  | arr xs =>
    obtain ⟨ts, hts, rfl⟩ := Option.map_eq_some_iff.mp h
    simp only [depth] at hroom
    obtain ⟨room, rfl⟩ : ∃ r, room = r + 1 := ⟨room - 1, by omega⟩
    rw [scanOnce.eq_def]
    simp only [List.cons_append, List.append_assoc, List.nil_append,
      if_neg (show cp '[' ≠ cp '"' by decide), if_neg (show cp '[' ≠ cp '{' by decide), if_true]
    cases xs with
    | nil =>
      rw [← Option.some.inj hts]
      rfl
    | cons x xs =>
      obtain ⟨t, ht, hmap⟩ := Option.bind_eq_some_iff.mp hts
      obtain ⟨ts', -, rfl⟩ := Option.map_eq_some_iff.mp hmap
      obtain ⟨c, s, hc, hws, hclose, -⟩ := dumps_head ht hheld.1
      obtain ⟨u, hu⟩ := commas_head hc ts'
      have hscan := scanElements_dumps (x :: xs) hts hheld (by simp) fuel room
        (by simp at hfuel; omega) (by omega) [] rest
      rw [hu, List.cons_append] at hscan ⊢
      simp only [skipWs_opens hws, past_ne hclose, hscan, List.nil_append]
  | obj items =>
    obtain ⟨ts, hts, rfl⟩ := Option.map_eq_some_iff.mp h
    simp only [depth] at hroom
    obtain ⟨room, rfl⟩ : ∃ r, room = r + 1 := ⟨room - 1, by omega⟩
    rw [scanOnce.eq_def]
    simp only [List.cons_append, List.append_assoc, List.nil_append,
      if_neg (show cp '{' ≠ cp '"' by decide), if_true]
    cases items with
    | nil =>
      rw [← Option.some.inj hts]
      rfl
    | cons p items =>
      obtain ⟨key, x⟩ := p
      obtain ⟨t, ht, hmap⟩ := Option.bind_eq_some_iff.mp hts
      obtain ⟨ts', -, rfl⟩ := Option.map_eq_some_iff.mp hmap
      obtain ⟨u, hu⟩ := commas_head (show dumpStr key ++ cp ':' :: t = cp '"' :: _ from rfl) ts'
      have hscan := scanMembers_dumps ((key, x) :: items) hts hheld.2 (by simp) fuel room
        (by simp at hfuel; omega) (by omega) [] hheld.1 rest
      have hws : isWs (cp '"') = false := by decide
      rw [hu, List.cons_append] at hscan ⊢
      simp only [skipWs_opens hws, past_ne (show cp '"' ≠ cp '}' by decide), hscan,
        List.nil_append]

theorem scanElements_dumps (xs : List Json) {ts : List Str} (h : dumpElements xs = some ts)
    (hheld : HeldAll xs) (hne : xs ≠ []) (fuel room : ℕ) (hfuel : (commas ts).length < fuel)
    (hroom : depthAll xs ≤ room) (acc : List Json) (rest : Str) :
    scanElements fuel room acc (commas ts ++ cp ']' :: rest) = .ok (.arr (acc ++ xs), rest) := by
  obtain ⟨fuel, rfl⟩ : ∃ f, fuel = f + 1 := ⟨fuel - 1, by omega⟩
  cases xs with
  | nil => exact absurd rfl hne
  | cons x xs =>
    obtain ⟨t, ht, hmap⟩ := Option.bind_eq_some_iff.mp h
    obtain ⟨ts', hts', rfl⟩ := Option.map_eq_some_iff.mp hmap
    simp only [depthAll] at hroom
    cases xs with
    | nil =>
      rw [← Option.some.inj hts', commas] at hfuel ⊢
      have hval := scanOnce_dumps x ht hheld.1 fuel room (by omega) (by omega)
        (stops_cons (show isNumeric (cp ']') = false by decide) rest)
      rw [scanElements.eq_def]
      simp only [hval, skipWs_opens (show isWs (cp ']') = false by decide), past_self]
    | cons y ys =>
      obtain ⟨t', ht', hmap'⟩ := Option.bind_eq_some_iff.mp hts'
      obtain ⟨ts'', -, rfl⟩ := Option.map_eq_some_iff.mp hmap'
      obtain ⟨c, s, hc, hws, -⟩ := dumps_head ht' hheld.2.1
      obtain ⟨u, hu⟩ := commas_head hc ts''
      have htail := scanElements_dumps (y :: ys) hts' hheld.2 (by simp) fuel room
      rw [commas_cons t (by simp), hu] at hfuel ⊢
      rw [hu] at htail
      simp only [List.length_append, List.length_cons] at hfuel htail
      have hval := scanOnce_dumps x ht hheld.1 fuel room (by omega) (by omega)
        (stops_cons (show isNumeric (cp ',') = false by decide) ((c :: u) ++ cp ']' :: rest))
      rw [scanElements.eq_def]
      simp only [List.append_assoc, List.cons_append] at hval htail ⊢
      simp only [hval, skipWs_opens (show isWs (cp ',') = false by decide),
        past_ne (show cp ',' ≠ cp ']' by decide), past_self, skipWs_opens hws,
        htail (by omega) (by omega) (acc ++ [x]) rest, List.append_assoc, List.cons_append,
        List.nil_append]

theorem scanMembers_dumps (items : List (Str × Json)) {ts : List Str}
    (h : dumpMembers items = some ts) (hheld : HeldItems items) (hne : items ≠ [])
    (fuel room : ℕ) (hfuel : (commas ts).length < fuel) (hroom : depthItems items ≤ room)
    (acc : Dict) (hkeys : ((acc ++ items).map Prod.fst).Nodup) (rest : Str) :
    scanMembers fuel room acc (commas ts ++ cp '}' :: rest) = .ok (.obj (acc ++ items), rest) := by
  obtain ⟨fuel, rfl⟩ : ∃ f, fuel = f + 1 := ⟨fuel - 1, by omega⟩
  cases items with
  | nil => exact absurd rfl hne
  | cons p items =>
    obtain ⟨key, x⟩ := p
    obtain ⟨t, ht, hmap⟩ := Option.bind_eq_some_iff.mp h
    obtain ⟨ts', hts', rfl⟩ := Option.map_eq_some_iff.mp hmap
    obtain ⟨c, s, hc, hws, -⟩ := dumps_head ht hheld.1
    have hset : Dict.set acc key x = acc ++ [(key, x)] := by
      refine set_append acc x fun hmem => ?_
      rw [List.map_append, List.nodup_append] at hkeys
      exact hkeys.2.2 key hmem key (by simp) rfl
    simp only [depthItems] at hroom
    cases items with
    | nil =>
      rw [← Option.some.inj hts', commas] at hfuel ⊢
      have hval := scanOnce_dumps x ht hheld.1 fuel room (by simp at hfuel; omega) (by omega)
        (stops_cons (show isNumeric (cp '}') = false by decide) rest)
      rw [scanMembers.eq_def]
      simp only [List.append_assoc, List.cons_append, scanKey_dumpStr]
      rw [hc, List.cons_append] at hval ⊢
      simp only [skipWs_opens hws, hval, skipWs_opens (show isWs (cp '}') = false by decide),
        past_self, hset]
    | cons q qs =>
      obtain ⟨key', y⟩ := q
      obtain ⟨t', ht', hmap'⟩ := Option.bind_eq_some_iff.mp hts'
      obtain ⟨ts'', -, rfl⟩ := Option.map_eq_some_iff.mp hmap'
      obtain ⟨u, hu⟩ := commas_head (show dumpStr key' ++ cp ':' :: t' = cp '"' :: _ from rfl) ts''
      have htail := scanMembers_dumps ((key', y) :: qs) hts' hheld.2 (by simp) fuel room
      have hkeys' : ((acc ++ [(key, x)] ++ (key', y) :: qs).map Prod.fst).Nodup := by
        simpa using hkeys
      rw [commas_cons _ (by simp), hu] at hfuel ⊢
      rw [hu] at htail
      simp only [List.length_append, List.length_cons] at hfuel htail
      have hval := scanOnce_dumps x ht hheld.1 fuel room (by omega) (by omega)
        (stops_cons (show isNumeric (cp ',') = false by decide) ((cp '"' :: u) ++ cp '}' :: rest))
      rw [scanMembers.eq_def]
      simp only [List.append_assoc, List.cons_append, scanKey_dumpStr] at hval htail ⊢
      rw [hc, List.cons_append] at hval ⊢
      simp only [skipWs_opens hws, hval, skipWs_opens (show isWs (cp ',') = false by decide),
        past_ne (show cp ',' ≠ cp '}' by decide), past_self,
        skipWs_opens (show isWs (cp '"') = false by decide), hset,
        htail (by omega) (by omega) _ hkeys' rest, List.append_assoc, List.cons_append,
        List.nil_append]

end

/-- What was written is read back, whatever whitespace stands around it. -/
theorem loads_dumps {v : Json} {t : Str} (h : dumps v = some t) (hheld : Held v)
    (hdepth : depth v ≤ Host.nestLimit) {w w' : Str} (hw : ∀ c ∈ w, isWs c = true)
    (hw' : ∀ c ∈ w', isWs c = true) : loads (w ++ t ++ w') = .ok v := by
  obtain ⟨c, s, hc, hopens⟩ := dumps_head h hheld
  have hskip : skipWs (w ++ t ++ w') = t ++ w' := by
    rw [skipWs, List.append_assoc, List.dropWhile_append_of_pos hw, hc, List.cons_append]
    exact skipWs_opens hopens.1 _
  have hmark : (w ++ t ++ w').head? ≠ some (Fin.ofNat _ 0xFEFF) := by
    cases w with
    | nil =>
      rw [List.nil_append, hc, List.cons_append, List.head?_cons]
      intro heq
      exact hopens.2.2.2 (congrArg Fin.val (Option.some.inj heq))
    | cons d w =>
      intro heq
      have hd := hw d List.mem_cons_self
      rw [Option.some.inj heq] at hd
      exact absurd hd (by decide)
  have hstops : Stops w' := by
    intro d hd
    have hws := hw' d (List.mem_of_head? hd)
    have hall : ∀ d : Cp, isWs d = true → isNumeric d = false := by
      intro d hd
      simp only [isWs, Bool.or_eq_true, beq_iff_eq] at hd
      rcases hd with ((rfl | rfl) | rfl) | rfl <;> decide
    exact hall d hws
  have hscan := scanOnce_dumps v h hheld (2 * (w ++ t ++ w').length + 2) Host.nestLimit
    (by simp only [List.length_append]; omega) hdepth hstops
  rw [loads, if_neg hmark, hskip, hscan]
  have hend : skipWs w' = [] := List.dropWhile_eq_nil_iff.mpr hw'
  simp only [hend, if_true]

/-! ### What a written text is made of -/

/-- No control character. -/
def printed (s : Str) : Bool := s.all fun c => 32 ≤ c.val

omit [Host] in
theorem printed_iff (s : Str) : printed s = true ↔ ∀ c ∈ s, 32 ≤ c.val := by
  simp [printed]

omit [Host] in
theorem escapeChar_printed (c : Cp) : printed (escapeChar c) = true := by
  by_cases hc : c.val < 32
  · have hall : ∀ n : Fin 32, printed (escapeChar (Fin.ofNat _ n.val)) = true := by decide
    have hself : Fin.ofNat 0x110000 c.val = c := Fin.ext (Nat.mod_eq_of_lt c.isLt)
    have hn := hall ⟨c.val, hc⟩
    rwa [hself] at hn
  · have h8 : c.val ≠ 8 ∧ c.val ≠ 12 ∧ c.val ≠ 10 ∧ c.val ≠ 13 ∧ c.val ≠ 9 := by omega
    unfold escapeChar
    simp only [h8, hc, if_false]
    split_ifs
    · decide
    · decide
    · simpa [printed] using hc

omit [Host] in
theorem printed_append (s t : Str) : printed (s ++ t) = (printed s && printed t) :=
  List.all_append

omit [Host] in
theorem printed_cons (c : Cp) (s : Str) : printed (c :: s) = (decide (32 ≤ c.val) && printed s) :=
  List.all_cons

omit [Host] in
theorem dumpStr_printed (s : Str) : printed (dumpStr s) = true := by
  have hall : printed (s.flatMap escapeChar) = true := by
    rw [printed_iff]
    intro c hc
    obtain ⟨d, -, hd⟩ := List.mem_flatMap.mp hc
    exact (printed_iff _).mp (escapeChar_printed d) c hd
  rw [dumpStr, List.cons_append, printed_cons, printed_append, hall]
  decide

omit [Host] in
theorem commas_printed {ts : List Str} (h : ∀ t ∈ ts, printed t = true) :
    printed (commas ts) = true := by
  induction ts with
  | nil => rfl
  | cons t ts ih =>
    rw [List.forall_mem_cons] at h
    by_cases hts : ts = []
    · rw [hts, commas]
      exact h.1
    · rw [commas_cons t hts, printed_append, printed_cons, h.1, ih h.2]
      decide

omit [Host] in
theorem digits_printed {s : Str} (h : ∀ c ∈ s, isDigit c = true) : printed s = true := by
  rw [printed_iff]
  intro c hc
  have hdigit := h c hc
  simp only [isDigit, Bool.and_eq_true, decide_eq_true_eq] at hdigit
  omega

omit [Host] in
/-- Digits may be left out. -/
theorem dropDigits_printed (s : Str) : printed (s.dropWhile isDigit) = printed s := by
  have htake : printed (s.takeWhile isDigit) = true :=
    digits_printed fun _ hc => List.mem_takeWhile_imp hc
  conv_rhs => rw [← List.takeWhile_append_dropWhile (p := isDigit) (l := s), printed_append, htake,
    Bool.true_and]

omit [Host] in
theorem fraction_printed (s : Str) : printed s = printed (fraction s).2 := by
  cases s with
  | nil => rfl
  | cons c s =>
    rw [fraction]
    split_ifs with h
    · rw [h.1, printed_cons, dropDigits_printed]
      rfl
    · rfl

omit [Host] in
theorem integral_printed (s : Str) : printed s = printed (integral s).2 := by
  cases s with
  | nil => rfl
  | cons c s =>
    rw [integral]
    split_ifs with h
    · rw [h, printed_cons]
      rfl
    · rw [dropDigits_printed]

omit [Host] in
theorem sign_printed {p : Cp → Bool} (hp : ∀ c, p c = true → 32 ≤ c.val) (s : Str) :
    printed s = printed (s.drop ((s.take 1).filter p).length) := by
  cases s with
  | nil => rfl
  | cons c s =>
    by_cases hc : p c = true
    · simp [hc, printed_cons, hp c hc]
    · simp [hc]

omit [Host] in
theorem exponent_printed (s : Str) : printed s = printed (exponent s).2 := by
  cases s with
  | nil => rfl
  | cons c s =>
    rw [exponent]
    dsimp only
    split_ifs with h hds
    · have hc : 32 ≤ c.val := by rcases h with rfl | rfl <;> decide
      have hsign := sign_printed (p := fun d => d == cp '+' || d == cp '-') (fun d hd => by
        simp only [Bool.or_eq_true, beq_iff_eq] at hd
        rcases hd with rfl | rfl <;> decide) s
      rw [printed_cons, hsign, dropDigits_printed, decide_eq_true hc, Bool.true_and]
    · rfl
    · rfl

/-- A text that reads as a number to its end has no control character. -/
theorem scanNumber_printed {s : Str} {v : Json} (h : scanNumber s = .ok (v, [])) :
    printed s = true := by
  rw [sign_printed (p := (· == cp '-')) (fun c hc => by
    rw [beq_iff_eq] at hc
    rw [hc]
    decide), integral_printed, fraction_printed, exponent_printed]
  unfold scanNumber at h
  dsimp only at h
  split_ifs at h
  all_goals
    rw [(Prod.mk.inj (Except.ok.inj h)).2]
    rfl

mutual

/-- A written value has no control character, so it is one line. -/
theorem dumps_printed (v : Json) {t : Str} (h : dumps v = some t) (hheld : Held v) :
    printed t = true := by
  cases v with
  | null =>
    rw [← Option.some.inj h]
    decide
  | bool b =>
    rw [← Option.some.inj h]
    cases b <;> decide
  | int n => exact scanNumber_printed (dumps_number h hheld (.inl ⟨n, rfl⟩))
  | float shown => exact scanNumber_printed (dumps_number h hheld (.inr ⟨shown, rfl⟩))
  | str s =>
    rw [← Option.some.inj h]
    exact dumpStr_printed s
  | arr xs =>
    obtain ⟨ts, hts, rfl⟩ := Option.map_eq_some_iff.mp h
    rw [List.cons_append, printed_cons, printed_append,
      commas_printed (dumpElements_printed xs hts hheld)]
    decide
  | obj items =>
    obtain ⟨ts, hts, rfl⟩ := Option.map_eq_some_iff.mp h
    rw [List.cons_append, printed_cons, printed_append,
      commas_printed (dumpMembers_printed items hts hheld.2)]
    decide

theorem dumpElements_printed (xs : List Json) {ts : List Str} (h : dumpElements xs = some ts)
    (hheld : HeldAll xs) : ∀ t ∈ ts, printed t = true := by
  cases xs with
  | nil =>
    rw [← Option.some.inj h]
    simp
  | cons x xs =>
    obtain ⟨t, ht, hmap⟩ := Option.bind_eq_some_iff.mp h
    obtain ⟨ts', hts', rfl⟩ := Option.map_eq_some_iff.mp hmap
    rw [List.forall_mem_cons]
    exact ⟨dumps_printed x ht hheld.1, dumpElements_printed xs hts' hheld.2⟩

theorem dumpMembers_printed (items : List (Str × Json)) {ts : List Str}
    (h : dumpMembers items = some ts) (hheld : HeldItems items) :
    ∀ t ∈ ts, printed t = true := by
  cases items with
  | nil =>
    rw [← Option.some.inj h]
    simp
  | cons p items =>
    obtain ⟨key, x⟩ := p
    obtain ⟨t, ht, hmap⟩ := Option.bind_eq_some_iff.mp h
    obtain ⟨ts', hts', rfl⟩ := Option.map_eq_some_iff.mp hmap
    rw [List.forall_mem_cons]
    refine ⟨?_, dumpMembers_printed items hts' hheld.2⟩
    rw [printed_append, printed_cons, dumpStr_printed, dumps_printed x ht hheld.1]
    decide

end

end

end AskFable.Python.JsonText

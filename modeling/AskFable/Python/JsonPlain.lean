import AskFable.Python.JsonDumps

/-!
# Writing JSON with the default separators

`json.dumps` with `ensure_ascii=False` and nothing else set: it writes a float that is not
finite, and fails only on an integer too long to print. Its text can be encoded exactly
when no string in the value has a lone surrogate.
-/
namespace AskFable.Python.JsonText
open AskFable.Text AskFable.Python

/-- `float.__repr__` as JSON spells it. -/
def plainFloat (shown : Str) : Str :=
  if shown = txt "nan" then txt "NaN"
  else if shown = txt "inf" then txt "Infinity"
  else if shown = txt "-inf" then txt "-Infinity"
  else shown

/-- The parts of a container. -/
def spaced : List Str → Str
  | [] => []
  | [t] => t
  | t :: ts => t ++ txt ", " ++ spaced ts

mutual

/-- `json.dumps(…, ensure_ascii=False)`; `none` is its `ValueError`. -/
def dumpsPlain : Json → Option Str
  | .null => some (txt "null")
  | .bool b => some (if b then txt "true" else txt "false")
  | .int n => if MAX_INT_DIGITS < (natStr n.natAbs).length then none else some (intStr n)
  | .float shown => some (plainFloat shown)
  | .str s => some (dumpStr s)
  | .arr xs => (plainElements xs).map fun ts => cp '[' :: spaced ts ++ [cp ']']
  | .obj items => (plainMembers items).map fun ts => cp '{' :: spaced ts ++ [cp '}']

def plainElements : List Json → Option (List Str)
  | [] => some []
  | x :: xs => (dumpsPlain x).bind fun t => (plainElements xs).map (t :: ·)

def plainMembers : List (Str × Json) → Option (List Str)
  | [] => some []
  | (key, x) :: items => (dumpsPlain x).bind fun t =>
      (plainMembers items).map ((dumpStr key ++ txt ": " ++ t) :: ·)

end

example : dumpsPlain (.obj [(txt "a", .arr [.int (-1), .float (txt "nan")]), (txt "b", .null)]) =
    some (txt "\x7b\"a\": [-1, NaN], \"b\": null\x7d") := by decide +kernel

/-- Every value of a dict that can be written can be written. -/
theorem dumpsPlain_get {items : Dict} {ts : List Str} (h : plainMembers items = some ts) {k : Str}
    {v : Json} (hv : Dict.get items k = some v) : (dumpsPlain v).isSome = true := by
  induction items generalizing ts with
  | nil => simp [Dict.get] at hv
  | cons p items ih =>
    obtain ⟨key, x⟩ := p
    obtain ⟨t, ht, hmap⟩ := Option.bind_eq_some_iff.mp h
    obtain ⟨ts', hts', -⟩ := Option.map_eq_some_iff.mp hmap
    by_cases hkey : key = k
    · rw [Dict.get, if_pos hkey] at hv
      rw [← Option.some.inj hv, ht]
      rfl
    · rw [Dict.get, if_neg hkey] at hv
      exact ih hts' hv

/-! ### Surrogates -/

mutual

/-- A lone surrogate in a string of a value; the `repr` of a float has none. -/
def hasSurrogate : Json → Bool
  | .float shown => shown.any isSurrogate
  | .str s => s.any isSurrogate
  | .arr xs => anySurrogate xs
  | .obj items => itemsSurrogate items
  | _ => false

def anySurrogate : List Json → Bool
  | [] => false
  | x :: xs => hasSurrogate x || anySurrogate xs

def itemsSurrogate : List (Str × Json) → Bool
  | [] => false
  | (key, x) :: items => key.any isSurrogate || hasSurrogate x || itemsSurrogate items

end

theorem ascii_surrogate {s : Str} (h : ∀ c ∈ s, c.val < 128) : s.any isSurrogate = false := by
  rw [List.any_eq_false]
  intro c hc
  have := h c hc
  simp only [isSurrogate, Bool.and_eq_true, decide_eq_true_eq]
  omega

theorem plainFloat_surrogate (shown : Str) :
    (plainFloat shown).any isSurrogate = shown.any isSurrogate := by
  unfold plainFloat
  split_ifs with h1 h2 h3
  · rw [h1]
    decide
  · rw [h2]
    decide
  · rw [h3]
    decide
  · rfl

theorem spaced_surrogate (ts : List Str) :
    (spaced ts).any isSurrogate = ts.any fun t => t.any isSurrogate := by
  have hsep : (txt ", ").any isSurrogate = false := by decide
  induction ts with
  | nil => rfl
  | cons t ts ih =>
    cases ts with
    | nil => simp [spaced]
    | cons u ts =>
      have hcons : spaced (t :: u :: ts) = t ++ txt ", " ++ spaced (u :: ts) := rfl
      rw [hcons, List.any_append, List.any_append, hsep, ih, Bool.or_false, List.any_cons (a := t)]

mutual

/-- The text of a value has a lone surrogate exactly when the value has. -/
theorem dumpsPlain_surrogate (v : Json) {t : Str} (h : dumpsPlain v = some t) :
    t.any isSurrogate = hasSurrogate v := by
  cases v with
  | null =>
    rw [← Option.some.inj h]
    decide
  | bool b =>
    rw [← Option.some.inj h]
    cases b <;> decide
  | int n =>
    rw [dumpsPlain, Option.ite_none_left_eq_some] at h
    rw [← Option.some.inj h.2]
    exact ascii_surrogate (intStr_ascii n)
  | float shown =>
    rw [← Option.some.inj h]
    exact plainFloat_surrogate shown
  | str s =>
    rw [← Option.some.inj h]
    exact dumpStr_surrogate s
  | arr xs =>
    obtain ⟨ts, hts, rfl⟩ := Option.map_eq_some_iff.mp h
    have hopen : isSurrogate (cp '[') = false := by decide
    have hclose : [cp ']'].any isSurrogate = false := by decide
    rw [List.cons_append, List.any_cons, List.any_append, spaced_surrogate,
      plainElements_surrogate xs hts, hopen, hclose, Bool.false_or, Bool.or_false, hasSurrogate]
  | obj items =>
    obtain ⟨ts, hts, rfl⟩ := Option.map_eq_some_iff.mp h
    have hopen : isSurrogate (cp '{') = false := by decide
    have hclose : [cp '}'].any isSurrogate = false := by decide
    rw [List.cons_append, List.any_cons, List.any_append, spaced_surrogate,
      plainMembers_surrogate items hts, hopen, hclose, Bool.false_or, Bool.or_false, hasSurrogate]

theorem plainElements_surrogate (xs : List Json) {ts : List Str} (h : plainElements xs = some ts) :
    (ts.any fun t => t.any isSurrogate) = anySurrogate xs := by
  cases xs with
  | nil =>
    rw [← Option.some.inj h]
    rfl
  | cons x xs =>
    obtain ⟨t, ht, hmap⟩ := Option.bind_eq_some_iff.mp h
    obtain ⟨ts', hts', rfl⟩ := Option.map_eq_some_iff.mp hmap
    rw [List.any_cons, dumpsPlain_surrogate x ht, plainElements_surrogate xs hts', anySurrogate]

theorem plainMembers_surrogate (items : List (Str × Json)) {ts : List Str}
    (h : plainMembers items = some ts) :
    (ts.any fun t => t.any isSurrogate) = itemsSurrogate items := by
  cases items with
  | nil =>
    rw [← Option.some.inj h]
    rfl
  | cons p items =>
    obtain ⟨key, x⟩ := p
    obtain ⟨t, ht, hmap⟩ := Option.bind_eq_some_iff.mp h
    obtain ⟨ts', hts', rfl⟩ := Option.map_eq_some_iff.mp hmap
    have hsep : (txt ": ").any isSurrogate = false := by decide
    rw [List.any_cons, List.any_append, List.any_append, dumpStr_surrogate, hsep,
      dumpsPlain_surrogate x ht, plainMembers_surrogate items hts', itemsSurrogate, Bool.or_false]

end

end AskFable.Python.JsonText

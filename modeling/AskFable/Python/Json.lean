import AskFable.Python.Text

/-!
# JSON values as Python holds them

`json.loads` yields `None`, booleans, integers of any size, floats, strings, lists
and dicts. A float is kept as the text `repr` prints for it, which is all the
source ever reads from one. A dict is its list of items in insertion order.
-/
namespace AskFable.Python
open AskFable.Text

inductive Json
  | null
  | bool (b : Bool)
  | int (n : ℤ)
  | float (shown : Str)
  | str (s : Str)
  | arr (xs : List Json)
  | obj (items : List (Str × Json))

abbrev Dict := List (Str × Json)

/-- What the Python runtime decides and no rule here looks into: the `repr` of a value
and of a float literal, `int()` of a text (none when it raises) and of a finite float (by
its `repr`), the Unicode tables beyond ASCII, and how deep a document may nest before the
reader gives up. -/
class Host where
  shown : Json → Str
  floatRepr : Str → Str
  intText : Str → Option ℤ
  intFloat : Str → ℤ
  alnum : Cp → Bool
  upper : Str → Str
  nestLimit : ℕ
  nest_pos : 0 < nestLimit

/-- A runtime that knows no character beyond ASCII. -/
@[reducible] def Host.ascii : Host where
  shown _ := txt "..."
  floatRepr s := s
  intText s := s.foldl (fun n c => n.bind fun m =>
    if isDigit c then some (10 * m + (c.val - 48)) else none) (if s = [] then none else some 0)
  intFloat _ := 0
  alnum _ := false
  upper s := s.map fun c => if isLower c then Fin.ofNat _ (c.val - 32) else c
  nestLimit := 1000
  nest_pos := by decide

/-- `\w` in a `str` pattern. -/
def wordChar [Host] (c : Cp) : Bool :=
  isAlnum c || c == cp '_' || (128 ≤ c.val && Host.alnum c)

namespace Json

/-- Python truthiness. -/
def truthy : Json → Bool
  | null => false
  | bool b => b
  | int n => n != 0
  | float s => s != txt "0.0" && s != txt "-0.0"
  | str s => !s.isEmpty
  | arr xs => !xs.isEmpty
  | obj items => !items.isEmpty

/-- `str(x)`. -/
def pyStr [Host] : Json → Str
  | null => txt "None"
  | bool b => if b then txt "True" else txt "False"
  | int n => intStr n
  | float s => s
  | str s => s
  | arr xs => Host.shown (arr xs)
  | obj items => Host.shown (obj items)

/-- `x == "literal"`, for a value of any type. -/
def isText (s : Str) : Json → Bool
  | str t => t == s
  | _ => false

/-- How `int(x)` ends: a `TypeError` or `ValueError` is one case, as callers catch them
together. -/
inductive IntOf
  | value (n : ℤ)
  | mismatch
  | overflow
  deriving DecidableEq

def intOf [Host] : Json → IntOf
  | bool b => .value (if b then 1 else 0)
  | int n => .value n
  | float s =>
    if s = txt "nan" then .mismatch
    else if s = txt "inf" ∨ s = txt "-inf" then .overflow
    else .value (Host.intFloat s)
  | str s => (Host.intText s).elim .mismatch .value
  | null | arr _ | obj _ => .mismatch

def asDict : Json → Option Dict
  | obj items => some items
  | _ => none

@[simp] theorem isText_iff (s : Str) (x : Json) : x.isText s = true ↔ x = str s := by
  cases x <;> simp [isText]

end Json

namespace Dict

/-- `d.get(k)`. -/
def get : Dict → Str → Option Json
  | [], _ => none
  | (a, x) :: d, k => if a = k then some x else get d k

/-- `d[k] = v`: an existing key keeps its place. -/
def set : Dict → Str → Json → Dict
  | [], k, v => [(k, v)]
  | (a, x) :: d, k, v => if a = k then (a, v) :: d else (a, x) :: set d k v

/-- The items whose key is not listed. -/
def without (ks : List Str) (d : Dict) : Dict := d.filter (fun p => !ks.contains p.1)

/-- `d.get(k)` as a condition. -/
def truthy (d : Dict) (k : Str) : Bool := (get d k).elim false Json.truthy

/-- `d.get(k) == "literal"`. -/
def getIs (d : Dict) (k s : Str) : Bool := (get d k).elim false (Json.isText s)

/-- `d.get(k) or fallback`. -/
def getOr (d : Dict) (k : Str) (fallback : Json) : Json :=
  match get d k with
  | some v => if v.truthy then v else fallback
  | none => fallback

/-- `str(d.get(k) or "")`. -/
def text [Host] (d : Dict) (k : Str) : Str := (getOr d k (.str [])).pyStr

theorem get_set (d : Dict) (k j : Str) (v : Json) :
    get (set d k v) j = if k = j then some v else get d j := by
  induction d with
  | nil => simp [set, get]
  | cons p d ih =>
    obtain ⟨a, x⟩ := p
    by_cases hak : a = k
    · subst hak
      by_cases haj : a = j <;> simp [set, get, haj]
    · by_cases haj : a = j
      · subst haj
        simp [set, get, hak, Ne.symm hak]
      · simp [set, get, hak, haj, ih]

theorem get_set_self (d : Dict) (k : Str) (v : Json) : get (set d k v) k = some v := by
  simp [get_set]

theorem get_set_ne (d : Dict) {k j : Str} (v : Json) (h : k ≠ j) :
    get (set d k v) j = get d j := by
  simp [get_set, h]

theorem get_without (ks : List Str) (d : Dict) (k : Str) :
    get (without ks d) k = if k ∈ ks then none else get d k := by
  induction d with
  | nil => simp [without, get]
  | cons p d ih =>
    obtain ⟨a, x⟩ := p
    have hcons : without ks ((a, x) :: d) =
        if a ∈ ks then without ks d else (a, x) :: without ks d := by
      by_cases ha : a ∈ ks <;> simp [without, ha]
    by_cases ha : a ∈ ks
    · rw [hcons, if_pos ha, ih]
      by_cases hk : k ∈ ks
      · simp [hk]
      · have hak : a ≠ k := fun h => hk (h ▸ ha)
        simp [hk, get, hak]
    · rw [hcons, if_neg ha]
      by_cases hak : a = k
      · subst hak
        simp [get, ha]
      · simp [get, hak, ih]

/-- What is set under a listed key is left out with it. -/
theorem without_set {ks : List Str} {k : Str} (h : k ∈ ks) (d : Dict) (v : Json) :
    without ks (set d k v) = without ks d := by
  induction d with
  | nil => simp [set, without, h]
  | cons p d ih =>
    obtain ⟨a, x⟩ := p
    by_cases hak : a = k
    · subst hak
      simp [set, without, h]
    · simp only [set, if_neg hak, without, List.filter_cons] at ih ⊢
      rw [ih]

theorem getIs_iff {d : Dict} {k s : Str} : getIs d k s = true ↔ get d k = some (.str s) := by
  cases h : get d k <;> simp [getIs, h]

theorem getIs_set_ne (d : Dict) {k j : Str} (v : Json) (h : k ≠ j) (s : Str) :
    getIs (set d k v) j s = getIs d j s := by
  simp [getIs, get_set_ne _ _ h]

theorem text_set_ne [Host] (d : Dict) {k j : Str} (v : Json) (h : k ≠ j) :
    text (set d k v) j = text d j := by
  simp [text, getOr, get_set_ne _ _ h]

end Dict
end AskFable.Python

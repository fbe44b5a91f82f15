import Mathlib.Logic.Function.Basic
import Mathlib.Data.Set.Basic
import Mathlib.Data.Option.Basic

/-!
# Tables derived from sources

A table holds for some keys what was derived from a source, with the digest of that source.
A key is settled by deriving again where the digest has changed, and a table is brought up to
date by settling the keys that have a source and dropping the others. As long as a digest stands
for one derivation, this gives the table that deriving everything anew would give.
-/
namespace AskFable.Derived

variable {K S D H : Type*} [DecidableEq K]

/-- How a source is digested, and what is derived from it. -/
structure Scheme (S D H : Type*) where
  digest : S → H
  derive : S → D

abbrev Table (K D H : Type*) := K → Option (H × D)

variable (scheme : Scheme S D H)

def Scheme.entry (s : S) : H × D := (scheme.digest s, scheme.derive s)

/-- The table of these sources, derived anew. -/
def anew (sources : K → Option S) : Table K D H := fun k => (sources k).map scheme.entry

/-- A key is settled: an entry with the digest of its source may stay. -/
def settle [DecidableEq H] (stay : Bool) (t : Table K D H) (k : K) (s : S) : Table K D H :=
  if stay = true ∧ (t k).map Prod.fst = some (scheme.digest s) then t
  else Function.update t k (some (scheme.entry s))

def drop (t : Table K D H) (k : K) : Table K D H := Function.update t k none

/-- Sources with one digest have one derivation. -/
def Separates (sources : Set S) : Prop :=
  ∀ s ∈ sources, ∀ s' ∈ sources, scheme.digest s = scheme.digest s' →
    scheme.derive s = scheme.derive s'

/-- Wherever a digest stands that one of the sources has, its derivation stands there too. -/
def Faithful (sources : Set S) (t : Table K D H) : Prop :=
  ∀ k h d, t k = some (h, d) → ∀ s ∈ sources, scheme.digest s = h → scheme.derive s = d

variable {scheme} {among : Set S} {t : Table K D H} {k : K} {s : S}

omit [DecidableEq K] in
theorem faithful_none : Faithful scheme among (fun _ : K => none) := fun _ _ _ h => nomatch h

/-- In a faithful table it makes no difference whether an entry stays. -/
theorem settle_eq [DecidableEq H] (h : Faithful scheme among t) (hs : s ∈ among) (stay : Bool) :
    settle scheme stay t k s = Function.update t k (some (scheme.entry s)) := by
  unfold settle
  split_ifs with hstay
  · obtain ⟨⟨d, e⟩, ht, hd⟩ := Option.map_eq_some_iff.mp hstay.2
    have hderive := h k d e ht s hs hd.symm
    refine (Function.update_eq_self_iff.mpr ?_).symm
    rw [ht, Scheme.entry, hderive]
    exact congrArg (fun d => some (d, e)) hd.symm
  · rfl

theorem Faithful.update (h : Faithful scheme among t) (hsep : Separates scheme among)
    (hs : s ∈ among) : Faithful scheme among (Function.update t k (some (scheme.entry s))) := by
  intro j d e hj s' hs' hdigest
  by_cases hjk : j = k
  · subst hjk
    rw [Function.update_self] at hj
    obtain ⟨rfl, rfl⟩ := Prod.mk.inj (Option.some.inj hj)
    exact hsep s' hs' s hs hdigest
  · rw [Function.update_of_ne hjk] at hj
    exact h j d e hj s' hs' hdigest

theorem Faithful.drop (h : Faithful scheme among t) : Faithful scheme among (drop t k) := by
  intro j d e hj
  by_cases hjk : j = k
  · subst hjk
    simp [Derived.drop] at hj
  · rw [Derived.drop, Function.update_of_ne hjk] at hj
    exact h j d e hj

/-- Dropping keys one after the other leaves the others. -/
theorem foldl_drop (t : Table K D H) (ks : List K) (j : K) :
    ks.foldl drop t j = if j ∈ ks then none else t j := by
  induction ks generalizing t with
  | nil => simp
  | cons k ks ih =>
    rw [List.foldl_cons, ih]
    by_cases hjk : j = k
    · simp [hjk, drop]
    · simp [hjk, drop]

end AskFable.Derived

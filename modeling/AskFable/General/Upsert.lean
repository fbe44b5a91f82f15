import AskFable.General.Keyed
import Mathlib.Data.Set.Card

/-!
# Upserts that skip what is there

A table by key, and entries that are written into it one after the other: a new key gets a row,
a row with another value is renewed, and a row with the same value is left as it is. The table
then shows the latest value of every key, and the writes count the keys that have changed.
-/
namespace AskFable.Upsert

variable {K V R E : Type*} [DecidableEq K] [DecidableEq V]

/-- How an entry becomes a row, and which value a row shows. -/
structure Schema (K V R E : Type*) where
  key : E → K
  value : E → V
  shown : R → V
  fresh : E → R
  renew : R → E → R
  shown_fresh : ∀ e, shown (fresh e) = value e
  shown_renew : ∀ r e, shown (renew r e) = value e

variable (s : Schema K V R E)

/-- One entry: the table after it, and whether a row was written. -/
def upsert (t : K → Option R) (e : E) : (K → Option R) × Bool :=
  match t (s.key e) with
  | none => (Function.update t (s.key e) (some (s.fresh e)), true)
  | some r =>
    if s.shown r = s.value e then (t, false)
    else (Function.update t (s.key e) (some (s.renew r e)), true)

/-- Entries in a row, with the number of writes. -/
def upserts (t : K → Option R) : List E → (K → Option R) × ℕ
  | [] => (t, 0)
  | e :: es =>
    let first := upsert s t e
    let rest := upserts first.1 es
    (rest.1, rest.2 + first.2.toNat)

variable {s}

theorem upserts_cons (t : K → Option R) (e : E) (es : List E) : upserts s t (e :: es) =
    ((upserts s (upsert s t e).1 es).1,
      (upserts s (upsert s t e).1 es).2 + (upsert s t e).2.toNat) := rfl

theorem upsert_of_shown {t : K → Option R} {e : E}
    (h : (t (s.key e)).map s.shown = some (s.value e)) : upsert s t e = (t, false) := by
  obtain ⟨r, hr, hshown⟩ := Option.map_eq_some_iff.mp h
  simp [upsert, hr, hshown]

theorem upsert_of_not_shown {t : K → Option R} {e : E}
    (h : (t (s.key e)).map s.shown ≠ some (s.value e)) :
    ∃ r, s.shown r = s.value e ∧ upsert s t e = (Function.update t (s.key e) (some r), true) := by
  unfold upsert
  cases ht : t (s.key e) with
  | none => exact ⟨s.fresh e, s.shown_fresh e, rfl⟩
  | some r =>
    rw [ht, Option.map_some, Ne, Option.some.injEq] at h
    exact ⟨s.renew r e, s.shown_renew r e, by simp [h]⟩

/-- Afterwards the entry's value is shown under its key. -/
theorem shown_upsert (t : K → Option R) (e : E) :
    ((upsert s t e).1 (s.key e)).map s.shown = some (s.value e) := by
  by_cases h : (t (s.key e)).map s.shown = some (s.value e)
  · rw [upsert_of_shown h, h]
  · obtain ⟨r, hr, hup⟩ := upsert_of_not_shown h
    simp [hup, hr]

theorem upsert_of_ne (t : K → Option R) {e : E} {k : K} (h : k ≠ s.key e) :
    (upsert s t e).1 k = t k := by
  by_cases hshown : (t (s.key e)).map s.shown = some (s.value e)
  · rw [upsert_of_shown hshown]
  · obtain ⟨r, -, hup⟩ := upsert_of_not_shown hshown
    simp [hup, h]

/-- Every key shows its latest entry, or what it showed before. -/
theorem shown_upserts (t : K → Option R) (es : List E) (k : K) :
    ((upserts s t es).1 k).map s.shown =
      ((Keyed.lookupLast s.key es k).map s.value).or ((t k).map s.shown) := by
  induction es generalizing t with
  | nil => simp [upserts, Keyed.lookupLast]
  | cons e es ih =>
    rw [upserts_cons, ih, Keyed.lookupLast_cons]
    cases Keyed.lookupLast s.key es k with
    | some e' => simp
    | none =>
      by_cases hk : s.key e = k
      · rw [← hk, shown_upsert]
        simp
      · rw [upsert_of_ne t (Ne.symm hk)]
        simp [hk]

/-- A key keeps its row when all its entries have the value that is shown. -/
theorem upserts_kept {t : K → Option R} {es : List E} {k : K}
    (h : ∀ e ∈ es, s.key e = k → (t k).map s.shown = some (s.value e)) :
    (upserts s t es).1 k = t k := by
  induction es generalizing t with
  | nil => rfl
  | cons e es ih =>
    have hhead : (upsert s t e).1 k = t k := by
      by_cases hk : s.key e = k
      · have hshown := h e List.mem_cons_self hk
        rw [← hk] at hshown
        rw [upsert_of_shown hshown]
      · exact upsert_of_ne t (Ne.symm hk)
    rw [upserts_cons, ih, hhead]
    intro e' he' hk
    rw [hhead]
    exact h e' (List.mem_cons_of_mem _ he') hk

/-- Entries that are shown already write nothing. -/
theorem upserts_of_shown {t : K → Option R} {es : List E}
    (h : ∀ e ∈ es, (t (s.key e)).map s.shown = some (s.value e)) : upserts s t es = (t, 0) := by
  induction es with
  | nil => rfl
  | cons e es ih =>
    rw [upserts_cons, upsert_of_shown (h e List.mem_cons_self),
      ih fun e' he' => h e' (List.mem_cons_of_mem _ he')]
    rfl

/-- Entries of one key have one value. -/
def Consistent (s : Schema K V R E) (es : List E) : Prop :=
  ∀ e ∈ es, ∀ e' ∈ es, s.key e = s.key e' → s.value e = s.value e'

theorem Consistent.shown {es : List E} (h : Consistent s es) (t : K → Option R) :
    ∀ e ∈ es, ((upserts s t es).1 (s.key e)).map s.shown = some (s.value e) := by
  intro e he
  rw [shown_upserts]
  cases hlast : Keyed.lookupLast s.key es (s.key e) with
  | none =>
    exact absurd (List.mem_map_of_mem he) ((Keyed.lookupLast_none s.key es _).mp hlast)
  | some e' =>
    obtain ⟨he', hk⟩ := Keyed.mem_of_lookupLast s.key hlast
    rw [Option.map_some, Option.some_or, h e' he' e he hk]

/-- The keys whose rows are new or renewed. -/
def changed (t t' : K → Option R) : Set K := {k | t' k ≠ t k}

theorem changed_subset (t : K → Option R) (es : List E) :
    changed t (upserts s t es).1 ⊆ {k | k ∈ es.map s.key} := by
  intro k hk
  by_contra hnot
  refine hk (upserts_kept fun e he hkey => absurd ?_ hnot)
  exact List.mem_map.mpr ⟨e, he, hkey⟩

/-- The writes are as many as the keys that have changed. -/
theorem Consistent.count {es : List E} (h : Consistent s es) (t : K → Option R) :
    (upserts s t es).2 = (changed t (upserts s t es).1).ncard := by
  induction es generalizing t with
  | nil => simp [upserts, changed]
  | cons e es ih =>
    have hes : Consistent s es := fun a ha b hb =>
      h a (List.mem_cons_of_mem _ ha) b (List.mem_cons_of_mem _ hb)
    by_cases hshown : (t (s.key e)).map s.shown = some (s.value e)
    · rw [upserts_cons, upsert_of_shown hshown]
      exact ih hes t
    · obtain ⟨r, hr, hup⟩ := upsert_of_not_shown hshown
      rw [upserts_cons, hup]
      generalize ht : Function.update t (s.key e) (some r) = t'
      have hself : t' (s.key e) = some r := by rw [← ht, Function.update_self]
      -- what follows does not touch the row just written
      have hkept : (upserts s t' es).1 (s.key e) = t' (s.key e) := by
        refine upserts_kept fun e' he' hk => ?_
        rw [hself, Option.map_some, hr, h e List.mem_cons_self e' (List.mem_cons_of_mem _ he')
          hk.symm]
      have hwritten : t' (s.key e) ≠ t (s.key e) := by
        intro heq
        rw [← heq, hself, Option.map_some, hr] at hshown
        exact hshown rfl
      have hsplit : changed t (upserts s t' es).1 =
          insert (s.key e) (changed t' (upserts s t' es).1) := by
        ext k
        by_cases hk : k = s.key e
        · simp only [hk, Set.mem_insert_iff, true_or, iff_true]
          exact fun heq => hwritten (hkept.symm.trans heq)
        · have hsame : t' k = t k := by rw [← ht, Function.update_of_ne hk]
          simp [changed, hk, hsame]
      have hnotMem : s.key e ∉ changed t' (upserts s t' es).1 := fun hmem => hmem hkept
      have hfinite : (changed t' (upserts s t' es).1).Finite :=
        (List.finite_toSet (es.map s.key)).subset (changed_subset t' es)
      rw [hsplit, Set.ncard_insert_of_notMem hnotMem hfinite, ← ih hes t']
      rfl

end AskFable.Upsert

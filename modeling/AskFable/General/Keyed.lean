import Mathlib.Data.List.Nodup
import Mathlib.Algebra.GroupWithZero.Nat

/-!
# Lists of records with a key

A list of records read through a key, as a dict built from it would be: the last
record of a key is the one found and the one changed. When the keys are distinct this
is a lookup table.
-/
namespace AskFable.Keyed

variable {α κ : Type*} [DecidableEq κ] (key : α → κ)

/-- The last record of a key. -/
def lookupLast (l : List α) (k : κ) : Option α := l.reverse.find? fun a => key a == k

/-- Change the last record of a key. -/
def modifyLast (k : κ) (f : α → α) : List α → List α
  | [] => []
  | a :: l => if l.any (fun b => key b == k) then a :: modifyLast k f l
      else if key a = k then f a :: l else a :: l

theorem modifyLast_eq_map {l : List α} (hl : (l.map key).Nodup) (k : κ) (f : α → α) :
    modifyLast key k f l = l.map fun a => if key a = k then f a else a := by
  induction l with
  | nil => rfl
  | cons a l ih =>
    rw [List.map_cons, List.nodup_cons] at hl
    have hrest (hk : ∀ b ∈ l, key b ≠ k) : l.map (fun b => if key b = k then f b else b) = l := by
      conv_rhs => rw [← List.map_id l]
      exact List.map_congr_left fun b hb => by simp [hk b hb]
    rw [modifyLast, List.map_cons]
    split_ifs with hany ha ha
    · obtain ⟨b, hb, hbk⟩ := List.any_eq_true.mp hany
      exact absurd (List.mem_map.mpr ⟨b, hb, (beq_iff_eq.mp hbk).trans ha.symm⟩) hl.1
    · rw [ih hl.2]
    all_goals
      rw [hrest]
      intro b hb hbk
      exact hany (List.any_eq_true.mpr ⟨b, hb, by simpa using hbk⟩)

/-- A change that keeps every key keeps the key column. -/
theorem map_key_modify {l : List α} (k : κ) {f : α → α} (hf : ∀ a, key (f a) = key a) :
    (l.map fun a => if key a = k then f a else a).map key = l.map key := by
  rw [List.map_map]
  exact List.map_congr_left fun a _ => by by_cases h : key a = k <;> simp [h, hf]

theorem lookupLast_none (l : List α) (k : κ) : lookupLast key l k = none ↔ k ∉ l.map key := by
  simp only [lookupLast, List.find?_eq_none, List.mem_reverse, List.mem_map, not_exists,
    not_and, beq_iff_eq]

theorem mem_of_lookupLast {l : List α} {k : κ} {a : α} (h : lookupLast key l k = some a) :
    a ∈ l ∧ key a = k := by
  have hmem := List.mem_of_find?_eq_some h
  have hkey := List.find?_some h
  exact ⟨by simpa using hmem, by simpa using hkey⟩

theorem lookupLast_cons (b : α) (l : List α) (k : κ) :
    lookupLast key (b :: l) k =
      (lookupLast key l k).or (if key b = k then some b else none) := by
  rw [lookupLast, List.reverse_cons, List.find?_append]
  by_cases h : key b = k <;> simp [lookupLast, h]

theorem lookupLast_append (l r : List α) (k : κ) :
    lookupLast key (l ++ r) k = (lookupLast key r k).or (lookupLast key l k) := by
  rw [lookupLast, List.reverse_append, List.find?_append]
  rfl

theorem lookupLast_map {β : Type*} (f : β → α) (l : List β) (k : κ) :
    lookupLast key (l.map f) k = (lookupLast (key ∘ f) l k).map f := by
  rw [lookupLast, ← List.map_reverse, List.find?_map]
  rfl

/-- Two keys that single out the same records find the same one. -/
theorem lookupLast_congr {κ' : Type*} [DecidableEq κ'] {key' : α → κ'} {l : List α} {k : κ}
    {k' : κ'} (h : ∀ a ∈ l, key a = k ↔ key' a = k') :
    lookupLast key l k = lookupLast key' l k' := by
  induction l with
  | nil => rfl
  | cons b l ih =>
    have hb := h b List.mem_cons_self
    rw [lookupLast_cons, lookupLast_cons, ih fun a ha => h a (List.mem_cons_of_mem _ ha)]
    by_cases hk : key b = k
    · rw [if_pos hk, if_pos (hb.mp hk)]
    · rw [if_neg hk, if_neg (mt hb.mpr hk)]

/-- With distinct keys, a lookup finds exactly the record of that key. -/
theorem lookupLast_some {l : List α} (hl : (l.map key).Nodup) (a : α) :
    lookupLast key l (key a) = some a ↔ a ∈ l := by
  refine ⟨fun h => (mem_of_lookupLast key h).1, fun h => ?_⟩
  cases hb : lookupLast key l (key a) with
  | none => exact absurd (List.mem_map_of_mem h) ((lookupLast_none key l _).mp hb)
  | some b =>
    obtain ⟨hbl, hbk⟩ := mem_of_lookupLast key hb
    rw [List.inj_on_of_nodup_map hl hbl h hbk]

/-- What a change leaves alone reads the same on the whole list. -/
theorem map_modifyLast {β : Type*} {g : α → β} {f : α → α} (h : ∀ a, g (f a) = g a) (k : κ)
    (l : List α) : (modifyLast key k f l).map g = l.map g := by
  induction l with
  | nil => rfl
  | cons a l ih =>
    rw [modifyLast]
    split_ifs
    · rw [List.map_cons, List.map_cons, ih]
    · rw [List.map_cons, List.map_cons, h]
    · rfl

/-- A total over the list changes by what the changed record contributes. -/
theorem sum_modifyLast (g : α → ℕ) {f : α → α} {l : List α} {k : κ} {a : α}
    (h : lookupLast key l k = some a) :
    ((modifyLast key k f l).map g).sum + g a = (l.map g).sum + g (f a) := by
  induction l with
  | nil => simp [lookupLast] at h
  | cons b l ih =>
    rw [modifyLast]
    split_ifs with hany hb
    · have hsome : lookupLast key l k ≠ none := by
        rw [Ne, lookupLast_none, not_not, List.mem_map]
        obtain ⟨c, hc, hck⟩ := List.any_eq_true.mp hany
        exact ⟨c, hc, beq_iff_eq.mp hck⟩
      have hl : lookupLast key l k = some a := by
        rw [lookupLast_cons] at h
        cases hlook : lookupLast key l k with
        | none => exact absurd hlook hsome
        | some c => rw [hlook] at h; exact h
      have := ih hl
      simp only [List.map_cons, List.sum_cons]
      omega
    all_goals
      have hnone : lookupLast key l k = none := by
        rw [lookupLast_none, List.mem_map]
        rintro ⟨c, hc, hck⟩
        exact hany (List.any_eq_true.mpr ⟨c, hc, by simpa using hck⟩)
      rw [lookupLast_cons, hnone, Option.none_or] at h
    · rw [if_pos hb] at h
      obtain rfl := Option.some.inj h
      simp only [List.map_cons, List.sum_cons]
      omega
    · rw [if_neg hb] at h
      exact absurd h (by simp)

/-- What a change at every place leaves alone. -/
theorem map_mapIdx {β : Type*} {g : α → β} {f : ℕ → α → α} (h : ∀ i a, g (f i a) = g a)
    (l : List α) : (l.mapIdx f).map g = l.map g :=
  List.ext_getElem (by simp) fun i _ _ => by simp [h]

/-- A table of pairs with distinct keys gives every pair back. -/
theorem lookup_of_mem {κ α : Type*} [BEq κ] [LawfulBEq κ] {l : List (κ × α)}
    (hl : (l.map Prod.fst).Nodup) {k : κ} {a : α} (h : (k, a) ∈ l) : l.lookup k = some a := by
  induction l with
  | nil => simp at h
  | cons p l ih =>
    obtain ⟨k', a'⟩ := p
    rw [List.map_cons, List.nodup_cons] at hl
    obtain heq | hmem := List.mem_cons.mp h
    · obtain ⟨rfl, rfl⟩ := Prod.mk.inj heq
      exact List.lookup_cons_self
    · have hne : k ≠ k' := by
        rintro rfl
        exact hl.1 (List.mem_map.mpr ⟨(k, a), hmem, rfl⟩)
      rw [List.lookup_cons, beq_false_of_ne hne]
      exact ih hl.2 hmem

theorem mem_of_lookup {κ α : Type*} [BEq κ] [LawfulBEq κ] {l : List (κ × α)} {k : κ} {a : α}
    (h : l.lookup k = some a) : (k, a) ∈ l := by
  obtain ⟨l₁, l₂, rfl, -⟩ := List.lookup_eq_some_iff.mp h
  simp

end AskFable.Keyed

import Mathlib.Data.List.Induction
import Mathlib.Data.List.Nodup

/-!
# One entry for each key

A stream folded into a table: the first element of a key creates its entry, every element
of the key updates it, and the entries stand in the order they were created.
-/
namespace AskFable.Grouping

section
variable {α : Type*} [BEq α] [LawfulBEq α]

theorem eraseDups_concat (as : List α) (a : α) :
    (as ++ [a]).eraseDups = if as.contains a then as.eraseDups else as.eraseDups ++ [a] := by
  rw [List.eraseDups_append]
  by_cases h : a ∈ as <;> simp [h, List.removeAll, List.eraseDups_cons]

theorem nodup_eraseDups (as : List α) : as.eraseDups.Nodup := by
  induction as using List.reverseRecOn with
  | nil => simp
  | append_singleton as a ih =>
    rw [eraseDups_concat]
    split_ifs with h
    · exact ih
    · rw [← List.concat_eq_append]
      exact ih.concat fun hmem => h (List.contains_iff_mem.mpr (List.mem_eraseDups.mp hmem))

theorem filter_eraseDups (p : α → Bool) (as : List α) :
    as.eraseDups.filter p = (as.filter p).eraseDups := by
  induction as using List.reverseRecOn with
  | nil => rfl
  | append_singleton as a ih =>
    rw [eraseDups_concat, List.filter_append, List.filter_singleton]
    by_cases hp : p a = true
    · rw [hp, cond_true, eraseDups_concat]
      by_cases h : a ∈ as <;> simp [h, hp, ih]
    · rw [Bool.not_eq_true] at hp
      rw [hp, cond_false, List.append_nil, ← ih]
      split_ifs <;> simp [hp]

/-- Move an element to the front, or put it there. -/
def moveFront (as : List α) (a : α) : List α := a :: as.erase a

/-- The last to be moved stands first. -/
theorem eraseDups_cons_eq (a : α) (as : List α) : (a :: as).eraseDups = moveFront as.eraseDups a := by
  rw [List.eraseDups_cons, ← filter_eraseDups, moveFront, (nodup_eraseDups _).erase_eq_filter]
  rfl

end

section
variable {κ σ : Type*} [BEq κ] [LawfulBEq κ] (name : σ → κ)

/-- `entries.setdefault(k, fresh)`, then an update of that entry in place. -/
def upsert (k : κ) (fresh : σ) (f : σ → σ) (entries : List σ) : List σ :=
  (if (entries.map name).contains k then entries else entries ++ [fresh]).map fun s =>
    if name s == k then f s else s

variable {name}

/-- A table that holds a function of its keys holds the updated function afterwards. -/
theorem upsert_map {g : κ → σ} (hg : ∀ k, name (g k) = k) (keys : List κ) (fresh : σ) (f : σ → σ) :
    upsert name (name fresh) fresh f (keys.eraseDups.map g) =
      (keys ++ [name fresh]).eraseDups.map fun k =>
        if k == name fresh then f (if keys.contains k then g k else fresh) else g k := by
  have hnames : (keys.eraseDups.map g).map name = keys.eraseDups := by
    rw [List.map_map]
    exact (List.map_congr_left fun k _ => hg k).trans (List.map_id _)
  have hkept : (keys.eraseDups.map g).map (fun s => if name s == name fresh then f s else s) =
      keys.eraseDups.map fun k =>
        if k == name fresh then f (if keys.contains k then g k else fresh) else g k := by
    rw [List.map_map]
    refine List.map_congr_left fun k hk => ?_
    rw [Function.comp_apply, hg k, if_pos (List.contains_iff_mem.mpr (List.mem_eraseDups.mp hk))]
  rw [upsert, hnames, eraseDups_concat]
  by_cases hk : name fresh ∈ keys
  · simp only [List.contains_iff_mem.mpr (List.mem_eraseDups.mpr hk), List.contains_iff_mem.mpr hk,
      if_true, hkept]
  · have hkeys : keys.contains (name fresh) = false := by simpa using hk
    have herased : keys.eraseDups.contains (name fresh) = false := by simpa using hk
    simp only [hkeys, herased, Bool.false_eq_true, if_false, List.map_append, hkept, List.map_cons,
      List.map_nil, beq_self_eq_true, if_true]

end

end AskFable.Grouping

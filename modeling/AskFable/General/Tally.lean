import Mathlib.Data.List.Nodup

/-!
# Indexes that count

An index over a table of rows: one entry for each key that a row has, with the number of its
rows. It is kept by an insertion that creates or counts up an entry, and restored after any
deletion by dropping the entries without rows and counting again.
-/
namespace AskFable.Tally

variable {ρ ε κ : Type*} [DecidableEq κ]

/-- The index has exactly the keys of the rows, each once, with the number of its rows. -/
structure Tallies (key : ρ → κ) (name : ε → κ) (count : ε → ℕ) (rows : List ρ)
    (entries : List ε) : Prop where
  unique : (entries.map name).Nodup
  covers : ∀ k, k ∈ entries.map name ↔ k ∈ rows.map key
  counts : ∀ e ∈ entries, count e = (rows.map key).count (name e)

variable {key : ρ → κ} {name : ε → κ} {count : ε → ℕ} {rows : List ρ} {entries : List ε}

theorem Tallies.nil : Tallies key name count [] [] := ⟨List.nodup_nil, by simp, by simp⟩

/-- Insert an entry, or change the one that is there. -/
def upsert (name : ε → κ) (fresh : ε) (f : ε → ε) (entries : List ε) : List ε :=
  if name fresh ∈ entries.map name then
    entries.map fun e => if name e = name fresh then f e else e
  else entries ++ [fresh]

/-- A new row is counted by an upsert. -/
theorem Tallies.upsert (h : Tallies key name count rows entries) (r : ρ) {fresh : ε} {f : ε → ε}
    (hfresh : name fresh = key r) (hone : count fresh = 1)
    (hname : ∀ e, name e = name fresh → name (f e) = name e)
    (hcount : ∀ e, count (f e) = count e + 1) :
    Tallies key name count (rows ++ [r]) (upsert name fresh f entries) := by
  unfold Tally.upsert
  by_cases hmem : name fresh ∈ entries.map name
  · rw [if_pos hmem]
    have hnames : (entries.map fun e => if name e = name fresh then f e else e).map name =
        entries.map name := by
      rw [List.map_map]
      refine List.map_congr_left fun e _ => ?_
      by_cases he : name e = name fresh
      · simp only [Function.comp_apply, he, if_true, hname e he]
      · simp only [Function.comp_apply, he, if_false]
    refine ⟨hnames ▸ h.unique, fun k => ?_, fun e he => ?_⟩
    · rw [hnames, h.covers, List.map_append, List.mem_append, List.map_singleton,
        List.mem_singleton]
      refine ⟨Or.inl, fun hk => hk.elim id fun hk => ?_⟩
      rw [hk, ← hfresh]
      exact (h.covers _).mp hmem
    · obtain ⟨e₀, he₀, rfl⟩ := List.mem_map.mp he
      have hold := h.counts e₀ he₀
      by_cases hk : name e₀ = name fresh
      · simp only [hk, if_true, hname e₀ hk, hcount, hold, List.map_append, List.count_append, ← hfresh,
          List.map_singleton, List.count_singleton_self]
      · have hne : ¬key r = name e₀ := fun heq => hk (heq.symm.trans hfresh.symm)
        simp [hk, hold, hne]
  · rw [if_neg hmem]
    refine ⟨?_, fun k => ?_, fun e he => ?_⟩
    · rw [List.map_append, List.map_singleton]
      exact h.unique.append (List.nodup_singleton _) (by simpa using hmem)
    · simp [h.covers, hfresh]
    · obtain he | he := List.mem_append.mp he
      · have hne : ¬key r = name e := fun heq =>
          hmem (hfresh ▸ heq ▸ List.mem_map_of_mem he)
        simp [h.counts e he, hne]
      · obtain rfl := List.mem_singleton.mp he
        have hnew : (rows.map key).count (name e) = 0 :=
          List.count_eq_zero.mpr fun hk => hmem ((h.covers _).mpr hk)
        rw [hone, List.map_append, List.count_append, hnew, List.map_singleton, ← hfresh,
          List.count_singleton_self]

/-- The entries that have rows. -/
def withRows (key : ρ → κ) (name : ε → κ) (rows : List ρ) (entries : List ε) : List ε :=
  entries.filter fun e => name e ∈ rows.map key

/-- After rows were deleted, the entries that still have rows make an index when they are
counted again. -/
theorem Tallies.recounted (h : Tallies key name count rows entries) {left : List ρ}
    (hleft : left ⊆ rows) {new : List ε}
    (hnames : new.map name = (withRows key name left entries).map name)
    (hcounts : ∀ e ∈ new, count e = (left.map key).count (name e)) :
    Tallies key name count left new := by
  refine ⟨?_, fun k => ?_, hcounts⟩
  · rw [hnames]
    exact h.unique.sublist (List.filter_sublist.map _)
  · rw [hnames]
    constructor
    · intro hk
      obtain ⟨e, he, rfl⟩ := List.mem_map.mp hk
      simpa using (List.mem_filter.mp he).2
    · intro hk
      obtain ⟨e, he, rfl⟩ := List.mem_map.mp ((h.covers k).mpr (List.map_subset key hleft hk))
      exact List.mem_map_of_mem (List.mem_filter.mpr ⟨he, by simpa using hk⟩)

end AskFable.Tally

import AskFable.Caching.Answers
import AskFable.General.Keyed
import AskFable.General.Retention
import Mathlib.Data.List.Induction

/-!
# What the cache serves

Any number of processes look up and put answers, each on a clock of its own. The table is never
ahead of the puts and never mixes them up: what it serves for a key is what was put under it last.
What keeps it from serving that is its age, and a sweep.
-/
namespace AskFable.Caching
open AskFable.Text AskFable.Keyed AskFable.Retention

/-- One use of the table. A put that is its process's hundredth sweeps, at a reading of the clock
of its own. -/
inductive Use (α : Type*)
  | get (k : Str) (now : ℚ)
  | put (row : Row α) (swept : Option ℚ)

section
variable {α : Type*}

/-- The rows that were put, in their order. -/
def written (uses : List (Use α)) : List (Row α) :=
  uses.filterMap fun u =>
    match u with
    | .get .. => none
    | .put row _ => some row

/-- What the uses read from their clocks. -/
def readings (uses : List (Use α)) : List ℚ :=
  uses.flatMap fun u =>
    match u with
    | .get _ now => [now]
    | .put row swept => row.ts :: swept.toList

/-- What was put under a key last. -/
def latest (uses : List (Use α)) (k : Str) : Option (Row α) := lookupLast Row.key (written uses) k

variable (ttl cap : ℤ)

def Use.step (rows : List (Row α)) : Use α → List (Row α)
  | .get k now => (Caching.get ttl now k rows).1
  | .put row none => Caching.put row.key row.payload row.ts rows
  | .put row (some now) => sweep ttl now cap (Caching.put row.key row.payload row.ts rows)

def uses (us : List (Use α)) : List (Row α) := us.foldl (Use.step ttl cap) []

/-! ### The rows are the last that were put -/

/-- A key has one row, and it is the last one put. -/
structure Current (us : List (Use α)) (rows : List (Row α)) : Prop where
  unique : (rows.map Row.key).Nodup
  latest : ∀ r ∈ rows, latest us r.key = some r

theorem Current.sublist {us : List (Use α)} {rows rows' : List (Row α)} (h : Current us rows)
    (hsub : rows'.Sublist rows) : Current us rows' where
  unique := h.unique.sublist (hsub.map _)
  latest r hr := h.latest r (hsub.subset hr)

theorem latest_get (us : List (Use α)) (k k' : Str) (now : ℚ) :
    latest (us ++ [.get k now]) k' = latest us k' := by
  simp [latest, written]

theorem latest_put (us : List (Use α)) (row : Row α) (swept : Option ℚ) (k : Str) :
    latest (us ++ [.put row swept]) k = if row.key = k then some row else latest us k := by
  simp only [latest, written, List.filterMap_append, List.filterMap_cons, List.filterMap_nil,
    lookupLast_append, lookupLast_cons]
  split_ifs <;> simp [lookupLast]

theorem Current.put {us : List (Use α)} {rows : List (Row α)} (h : Current us rows) (row : Row α)
    (swept : Option ℚ) :
    Current (us ++ [.put row swept]) (put row.key row.payload row.ts rows) where
  unique := by
    rw [Caching.put, List.map_append, List.nodup_append]
    refine ⟨h.unique.sublist (List.filter_sublist.map _), by simp, fun a ha b hb => ?_⟩
    obtain ⟨r, hr, rfl⟩ := List.mem_map.mp ha
    have hne := (List.mem_filter.mp hr).2
    have hb : b = row.key := by simpa using hb
    rw [hb]
    simpa using hne
  latest r hr := by
    rw [Caching.put, List.mem_append, List.mem_filter, List.mem_singleton] at hr
    rw [latest_put]
    rcases hr with ⟨hr, hne⟩ | rfl
    · rw [if_neg fun heq => by simp [heq] at hne, h.latest r hr]
    · rw [if_pos rfl]

theorem sweep_sublist (now : ℚ) (rows : List (Row α)) : (sweep ttl now cap rows).Sublist rows :=
  List.filter_sublist.trans List.filter_sublist

theorem Current.get {us : List (Use α)} {rows : List (Row α)} (h : Current us rows) (k : Str)
    (now : ℚ) : Current (us ++ [.get k now]) rows where
  unique := h.unique
  latest r hr := by rw [latest_get, h.latest r hr]

theorem current_uses (us : List (Use α)) : Current us (uses ttl cap us) := by
  induction us using List.reverseRecOn with
  | nil => exact ⟨List.nodup_nil, fun r hr => nomatch hr⟩
  | append_singleton us u ih =>
    rw [uses, List.foldl_append, List.foldl_cons, List.foldl_nil]
    cases u with
    | get k now => exact (ih.get k now).sublist (get_sublist ttl now k _)
    | put row swept =>
      cases swept with
      | none => exact ih.put row none
      | some now => exact (ih.put row (some now)).sublist (sweep_sublist ttl cap now _)

/-! ### What is served -/

theorem get_of_mem {rows : List (Row α)} (hunique : (rows.map Row.key).Nodup) {r : Row α}
    (hr : r ∈ rows) (now : ℚ) :
    get ttl now r.key rows =
      if ttl < now - r.ts then (rows.filter (·.key ≠ r.key), none)
      else (rows, some (r.payload, (now - r.ts).floor.toNat)) := by
  have hfind : rows.find? (·.key = r.key) = some r := by
    cases hfind : rows.find? (·.key = r.key) with
    | none => exact absurd (List.find?_eq_none.mp hfind r hr) (by simp)
    | some r' =>
      have hkey : r'.key = r.key := by simpa using List.find?_some hfind
      rw [List.inj_on_of_nodup_map hunique (List.mem_of_find?_eq_some hfind) hr hkey]
  unfold get
  rw [hfind]

/-- What is served for a key was put under it last, and is as old as it is said to be. -/
theorem get_latest {us : List (Use α)} {k : Str} {now : ℚ} {p : α} {age : ℕ}
    (h : (get ttl now k (uses ttl cap us)).2 = some (p, age)) :
    ∃ r, latest us k = some r ∧ r.payload = p ∧ now - r.ts ≤ ttl ∧
      age = (now - r.ts).floor.toNat := by
  have hcurrent := current_uses ttl cap us
  obtain ⟨r, hr, rfl, -⟩ := mem_of_get h
  rw [get_of_mem ttl hcurrent.unique hr] at h
  split_ifs at h with hold
  simp only [Option.some.injEq, Prod.mk.injEq] at h
  exact ⟨r, hcurrent.latest r hr, h.1, not_lt.mp hold, h.2.symm⟩

/-- A row that is young enough outlasts a lookup. -/
theorem mem_get {rows : List (Row α)} (hunique : (rows.map Row.key).Nodup) {r : Row α}
    (hr : r ∈ rows) {now : ℚ} (hfresh : now - r.ts ≤ ttl) (k : Str) :
    r ∈ (get ttl now k rows).1 := by
  by_cases hk : r.key = k
  · rw [← hk, get_of_mem ttl hunique hr, if_neg (not_lt.mpr hfresh)]
    exact hr
  · unfold get
    cases rows.find? (·.key = k) with
    | none => exact hr
    | some r' =>
      dsimp only
      split_ifs
      · exact List.mem_filter.mpr ⟨hr, by simpa using hk⟩
      · exact hr

/-- Where nothing is evicted for room, what was put last is there until it is too old, whatever the
clocks have shown before. -/
theorem mem_uses (hcap : cap ≤ 0) {us : List (Use α)} {now : ℚ} (hnow : ∀ t ∈ readings us, t ≤ now)
    {k : Str} {r : Row α} (hlast : latest us k = some r) (hfresh : now - r.ts ≤ ttl) :
    r ∈ uses ttl cap us := by
  induction us using List.reverseRecOn with
  | nil => nomatch hlast
  | append_singleton us u ih =>
    have hsplit : readings (us ++ [u]) = readings us ++ readings [u] := List.flatMap_append
    rw [hsplit] at hnow
    have ih := ih fun t ht => hnow t (List.mem_append_left _ ht)
    have hread : ∀ t ∈ readings [u], t ≤ now := fun t ht => hnow t (List.mem_append_right _ ht)
    have hstays {t : ℚ} (ht : t ≤ now) : t - r.ts ≤ ttl := (sub_le_sub_right ht _).trans hfresh
    rw [uses, List.foldl_append, List.foldl_cons, List.foldl_nil, ← uses]
    cases u with
    | get k' t =>
      rw [latest_get] at hlast
      exact mem_get ttl (current_uses ttl cap us).unique (ih hlast)
        (hstays (hread t (by simp [readings]))) k'
    | put row swept =>
      have hput : r ∈ put row.key row.payload row.ts (uses ttl cap us) := by
        rw [latest_put] at hlast
        rw [put, List.mem_append, List.mem_singleton, List.mem_filter]
        by_cases hk : row.key = k
        · rw [if_pos hk] at hlast
          exact .inr (Option.some.inj hlast).symm
        · rw [if_neg hk] at hlast
          have hkey : r.key = k := (mem_of_lookupLast Row.key hlast).2
          exact .inl ⟨ih hlast, by simpa [hkey] using Ne.symm hk⟩
      cases swept with
      | none => exact hput
      | some t =>
        have ht : t - r.ts ≤ ttl := hstays (hread t (by simp [readings]))
        refine List.mem_filter.mpr ⟨List.mem_filter.mpr ⟨hput, ?_⟩, ?_⟩
        · rw [decide_eq_true_eq]
          exact sub_le_comm.mp ht
        · rw [evicted, if_neg fun hover => absurd hover.1 (not_lt.mpr hcap)]
          simp

/-! ### How many rows there are -/

theorem length_sweep_le (hcap : 0 < cap) (now : ℚ) {rows : List (Row α)}
    (hunique : (rows.map Row.key).Nodup) : ((sweep ttl now cap rows).length : ℤ) ≤ cap := by
  have hnodup : ((unexpired ttl now rows).map Row.key).Nodup :=
    hunique.sublist (List.filter_sublist.map _)
  unfold sweep
  dsimp only
  by_cases hover : cap < (unexpired ttl now rows).length
  · have hperm := outside_perm_drop
      (List.perm_insertionSort (fun a b : Row α => a.ts ≤ b.ts) (unexpired ttl now rows)) hnodup
      ((unexpired ttl now rows).length - cap * 9 / 10).toNat
    have hlength := hperm.length_eq
    rw [List.length_drop, List.length_insertionSort] at hlength
    have hsame : (unexpired ttl now rows).filter
        (fun r => r.key ∉ evicted cap (unexpired ttl now rows)) =
        outside Row.key ((unexpired ttl now rows).insertionSort fun a b => a.ts ≤ b.ts)
          ((unexpired ttl now rows).length - cap * 9 / 10).toNat (unexpired ttl now rows) := by
      refine List.filter_congr fun r _ => ?_
      rw [evicted, if_pos ⟨hcap, hover⟩]
      simp
    rw [hsame, hlength]
    omega
  · have hle := List.length_filter_le (fun r : Row α => decide (r.key ∉
      evicted cap (unexpired ttl now rows))) (unexpired ttl now rows)
    omega

theorem length_step_le (rows : List (Row α)) (u : Use α) :
    (u.step ttl cap rows).length ≤ rows.length + (written [u]).length := by
  have hput (row : Row α) : (put row.key row.payload row.ts rows).length ≤ rows.length + 1 := by
    rw [put, List.length_append]
    exact Nat.add_le_add_right (List.length_filter_le _ _) 1
  cases u with
  | get k now => exact (get_sublist ttl now k rows).length_le
  | put row swept =>
    cases swept with
    | none => exact hput row
    | some now => exact (sweep_sublist ttl cap now _).length_le.trans (hput row)

theorem length_run_le (rows : List (Row α)) (us : List (Use α)) :
    (us.foldl (Use.step ttl cap) rows).length ≤ rows.length + (written us).length := by
  induction us generalizing rows with
  | nil => exact le_rfl
  | cons u us ih =>
    have hsplit : (written (u :: us)).length = (written [u]).length + (written us).length := by
      rw [← List.length_append, written, written, written, ← List.filterMap_append]
      rfl
    have hstep := length_step_le ttl cap rows u
    rw [List.foldl_cons, hsplit]
    exact (ih _).trans (by omega)

end

end AskFable.Caching

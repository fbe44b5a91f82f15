import AskFable.Python.Text
import Mathlib.Algebra.Order.Ring.Rat
import Mathlib.Data.List.Sort

/-!
# The answer cache

The table `answers` of `cache.db`: a key has one row, a row is served until it is older than the
time to live, and a served row was put under its key.
-/
namespace AskFable.Caching
open AskFable.Text

structure Row (α : Type*) where
  key : Str
  payload : α
  ts : ℚ

section
variable {α : Type*}

/-- `get`: a row past its time to live is pruned on the way. -/
def get (ttl : ℤ) (now : ℚ) (k : Str) (rows : List (Row α)) : List (Row α) × Option (α × ℕ) :=
  match rows.find? (·.key = k) with
  | none => (rows, none)
  | some row =>
    let delta := now - row.ts
    if ttl < delta then (rows.filter (·.key ≠ k), none)
    else (rows, some (row.payload, delta.floor.toNat))

/-- The `INSERT OR REPLACE` of `put`. -/
def put (k : Str) (payload : α) (now : ℚ) (rows : List (Row α)) : List (Row α) :=
  rows.filter (·.key ≠ k) ++ [⟨k, payload, now⟩]

/-- The keys `_sweep` evicts: past the cap, the oldest rows down to 90% of it. -/
def evicted (cap : ℤ) (rows : List (Row α)) : List Str :=
  if 0 < cap ∧ cap < rows.length then
    ((rows.insertionSort fun a b => a.ts ≤ b.ts).take (rows.length - cap * 9 / 10).toNat).map
      Row.key
  else []

/-- The rows within their time to live. -/
def unexpired (ttl : ℤ) (now : ℚ) (rows : List (Row α)) : List (Row α) :=
  rows.filter fun r => now - ttl ≤ r.ts

/-- `_sweep`. -/
def sweep (ttl : ℤ) (now : ℚ) (cap : ℤ) (rows : List (Row α)) : List (Row α) :=
  let rows := unexpired ttl now rows
  rows.filter fun r => r.key ∉ evicted cap rows

theorem get_sublist (ttl : ℤ) (now : ℚ) (k : Str) (rows : List (Row α)) :
    (get ttl now k rows).1.Sublist rows := by
  unfold get
  split
  · exact .refl _
  · dsimp only
    split_ifs
    · exact List.filter_sublist
    · exact .refl _

/-- What is served stands in a row of the key. -/
theorem mem_of_get {ttl : ℤ} {now : ℚ} {k : Str} {rows : List (Row α)} {served : α × ℕ}
    (h : (get ttl now k rows).2 = some served) :
    ∃ row ∈ rows, row.key = k ∧ row.payload = served.1 := by
  unfold get at h
  cases hrow : rows.find? (·.key = k) with
  | none =>
    rw [hrow] at h
    nomatch h
  | some row =>
    rw [hrow] at h
    dsimp only at h
    split_ifs at h
    obtain rfl := Option.some.inj h
    exact ⟨row, List.mem_of_find?_eq_some hrow, by simpa using List.find?_some hrow, rfl⟩

theorem mem_put {k : Str} {payload : α} {now : ℚ} {rows : List (Row α)} {row : Row α}
    (h : row ∈ put k payload now rows) : row ∈ rows ∨ row = ⟨k, payload, now⟩ := by
  rw [put, List.mem_append, List.mem_singleton] at h
  exact h.imp_left List.mem_of_mem_filter

end

end AskFable.Caching

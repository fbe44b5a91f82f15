import AskFable.Python.Text
import AskFable.General.Versioned
import AskFable.General.Keyed
import Mathlib.Data.List.Sort

/-!
# The local context store

The `context` table of the SQLite backend and the statements run on it. Each operation
is one transaction, so clients interleave at this level; an eviction sweep is two
statements, hence the row count it decided by may be out of date when it deletes. An
operation the database refuses changes nothing and reports failure.
-/
namespace AskFable.Store
open AskFable.Text AskFable.Versioned

structure Row where
  key : Str
  value : Str
  /-- `time.time()` at the write; only its order is read. -/
  ts : ℤ
  description : Str
  version : ℕ
  deriving DecidableEq

/-- `key` is the primary key and never empty, `version` starts at 1. -/
structure Table where
  rows : List Row
  unique : (rows.map Row.key).Nodup
  named : ∀ r ∈ rows, r.key ≠ []
  versioned : ∀ r ∈ rows, 0 < r.version

namespace Table

def empty : Table := ⟨[], List.nodup_nil, by simp, by simp⟩

def row? (t : Table) (key : Str) : Option Row := t.rows.find? fun r => r.key == key

/-- The stored version of a key, 0 when it is absent. -/
def version (t : Table) (key : Str) : ℕ := (t.row? key).elim 0 Row.version

theorem row?_none {t : Table} {key : Str} : t.row? key = none ↔ key ∉ t.rows.map Row.key := by
  simp only [row?, List.find?_eq_none, List.mem_map, beq_iff_eq, not_exists, not_and]

theorem row?_some {t : Table} {key : Str} {r : Row} (h : t.row? key = some r) :
    r ∈ t.rows ∧ r.key = key := by
  have hkey := List.find?_some h
  exact ⟨List.mem_of_find?_eq_some h, by simpa using hkey⟩

theorem version_eq_zero {t : Table} {key : Str} : t.version key = 0 ↔ t.row? key = none := by
  unfold version
  cases h : t.row? key with
  | none => simp
  | some r =>
    have := t.versioned r (row?_some h).1
    simp
    omega

/-- `INSERT … VALUES (…, 1)` of a key that is not there. -/
def insert (t : Table) (key value description : Str) (now : ℤ) (hkey : key ≠ [])
    (hnew : t.row? key = none) : Table where
  rows := t.rows ++ [⟨key, value, now, description, 1⟩]
  unique := by
    rw [List.map_append, List.nodup_append]
    refine ⟨t.unique, by simp, fun a ha b hb hab => ?_⟩
    have hb : b = key := by simpa using hb
    exact row?_none.mp hnew (hb ▸ hab ▸ ha)
  named := by
    intro r hr
    rcases List.mem_append.mp hr with hr | hr
    · exact t.named r hr
    · rw [List.mem_singleton.mp hr]
      exact hkey
  versioned := by
    intro r hr
    rcases List.mem_append.mp hr with hr | hr
    · exact t.versioned r hr
    · rw [List.mem_singleton.mp hr]
      exact Nat.one_pos

/-- `SET value=…, ts=…, description=…, version=version+1`. -/
def Row.overwrite (r : Row) (value description : Str) (now : ℤ) : Row :=
  { r with value, ts := now, description, version := r.version + 1 }

/-- Overwrite the row of a key. -/
def update (t : Table) (key value description : Str) (now : ℤ) : Table where
  rows := t.rows.map fun r =>
    if r.key = key then Row.overwrite r value description now else r
  unique := by
    have hkeys := Keyed.map_key_modify Row.key key (l := t.rows)
      (f := fun r => Row.overwrite r value description now) fun _ => rfl
    rw [hkeys]
    exact t.unique
  named := by
    intro r hr
    obtain ⟨r₀, hr₀, rfl⟩ := List.mem_map.mp hr
    split_ifs <;> exact t.named r₀ hr₀
  versioned := by
    intro r hr
    obtain ⟨r₀, hr₀, rfl⟩ := List.mem_map.mp hr
    split_ifs
    · exact Nat.succ_pos _
    · exact t.versioned r₀ hr₀

/-- `DELETE` of the rows whose key is picked. -/
def remove (t : Table) (p : Str → Bool) : Table where
  rows := t.rows.filter fun r => !p r.key
  unique := t.unique.sublist (List.filter_sublist.map _)
  named := fun r hr => t.named r (List.mem_of_mem_filter hr)
  versioned := fun r hr => t.versioned r (List.mem_of_mem_filter hr)

/-- `SELECT key … ORDER BY ts ASC LIMIT n`. -/
def oldest (t : Table) (n : ℕ) : List Str :=
  ((t.rows.insertionSort fun a b => a.ts ≤ b.ts).take n).map Row.key

end Table

/-! ### The backend's operations -/

/-- `put`: the table after it and whether the write landed. -/
def put (t : Table) (key value description : Str) (expected : Option ℤ) (now : ℤ) :
    Table × Bool :=
  let key := strip key
  let description := strip description
  if hkey : key = [] then (t, false)
  else
    match expected with
    | none =>
      if hnew : t.row? key = none then (t.insert key value description now hkey hnew, true)
      else (t.update key value description now, true)
    | some v =>
      if v ≤ 0 then
        if hnew : t.row? key = none then (t.insert key value description now hkey hnew, true)
        else (t, false)
      else if (t.row? key).any (fun r => (r.version : ℤ) == v) then
        (t.update key value description now, true)
      else (t, false)

/-- `row_versioned`, which `get_versioned` reads. -/
def rowVersioned (t : Table) (key : Str) : Option (Str × ℕ) :=
  if strip key = [] then none else (t.row? (strip key)).map fun r => (r.value, r.version)

def delete (t : Table) (key : Str) : Table × Bool :=
  if strip key = [] then (t, false)
  else (t.remove fun k => k == strip key, (t.row? (strip key)).isSome)

/-- The keys `_sweep` evicts: past the cap, the oldest rows down to 90% of it.
`counted` is what its `SELECT COUNT(*)` read. -/
def evicted (t : Table) (cap : ℤ) (counted : ℕ) : List Str :=
  if cap ≤ 0 then []
  else if cap < counted then t.oldest (counted - cap * 9 / 10).toNat
  else []

def sweep (t : Table) (cap : ℤ) (counted : ℕ) : Table :=
  t.remove fun k => (evicted t cap counted).contains k

inductive Op
  | get (key : Str)
  | put (key value description : Str) (expected : Option ℤ) (now : ℤ)
  | delete (key : Str)
  | sweep (cap : ℤ) (counted : ℕ)

inductive Reply
  | got (row : Option (Str × ℕ))
  | done (ok : Bool)
  | swept
  deriving DecidableEq

def exec (t : Table) : Op → Table × Reply
  | .get key => (t, .got (rowVersioned t key))
  | .put key value description expected now =>
    let (t', ok) := put t key value description expected now
    (t', .done ok)
  | .delete key =>
    let (t', ok) := delete t key
    (t', .done ok)
  | .sweep cap counted => (sweep t cap counted, .swept)

/-- What an operation did to the row of `key`. -/
def Op.event (key : Str) (t : Table) : Op → Event
  | .get _ => .idle
  | .put k value description expected now =>
    if strip k = key ∧ (Store.put t k value description expected now).2 = true then .write
    else .idle
  | .delete k => if strip k = key ∧ (Store.delete t k).2 = true then .remove else .idle
  | .sweep cap counted =>
    if key ∈ evicted t cap counted ∧ (t.row? key).isSome then .remove else .idle

def run (t : Table) (ops : List Op) : Table := ops.foldl (fun t op => (exec t op).1) t

/-- What each operation of a run did to the row of `key`. -/
def events (key : Str) (t : Table) : List Op → List Event
  | [] => []
  | op :: ops => op.event key t :: events key (exec t op).1 ops

/-! ### What each operation does to one row -/

namespace Table

theorem row?_insert (t : Table) (key value description : Str) (now : ℤ) (hkey : key ≠ [])
    (hnew : t.row? key = none) (k : Str) :
    (t.insert key value description now hkey hnew).row? k =
      if key = k then some ⟨key, value, now, description, 1⟩ else t.row? k := by
  by_cases h : key = k
  · subst h
    have hold : t.rows.find? (fun r => r.key == key) = none := hnew
    simp [row?, insert, List.find?_append, hold]
  · simp [row?, insert, List.find?_append, h]

theorem row?_update (t : Table) (key value description : Str) (now : ℤ) (k : Str) :
    (t.update key value description now).row? k =
      if key = k then (t.row? k).map fun r => Row.overwrite r value description now
      else t.row? k := by
  have hkeep : ((fun r : Row => r.key == k) ∘ fun r =>
      if r.key = key then Row.overwrite r value description now else r) = fun r => r.key == k := by
    funext r
    by_cases hr : r.key = key <;> simp [hr, Row.overwrite]
  simp only [row?, update, List.find?_map, hkeep]
  cases hr : t.rows.find? fun r => r.key == k with
  | none => simp
  | some r =>
    have hrk : r.key = k := (row?_some hr).2
    by_cases hk : key = k
    · simp [hrk, hk]
    · simp [hrk, hk, Ne.symm hk]

theorem row?_remove (t : Table) (p : Str → Bool) (k : Str) :
    (t.remove p).row? k = if p k = true then none else t.row? k := by
  simp only [row?, remove, List.find?_filter]
  split_ifs with hp
  · rw [List.find?_eq_none]
    intro r _ hr
    simp only [Bool.not_eq_true', beq_iff_eq, decide_eq_true_eq] at hr
    rw [hr.2, hp] at hr
    exact absurd hr.1 (by simp)
  · congr 1
    funext r
    by_cases hr : r.key = k <;> simp [hr, hp]

theorem version_insert (t : Table) (key value description : Str) (now : ℤ) (hkey : key ≠ [])
    (hnew : t.row? key = none) (k : Str) :
    (t.insert key value description now hkey hnew).version k =
      if key = k then t.version k + 1 else t.version k := by
  simp only [version, row?_insert]
  split_ifs with h
  · rw [← h, hnew]
    rfl
  · rfl

theorem version_update (t : Table) (key value description : Str) (now : ℤ) (k : Str)
    (hrow : t.row? key ≠ none) :
    (t.update key value description now).version k =
      if key = k then t.version k + 1 else t.version k := by
  simp only [version, row?_update]
  split_ifs with h
  · subst h
    cases hr : t.row? key with
    | none => exact absurd hr hrow
    | some r => rfl
  · rfl

theorem version_remove (t : Table) (p : Str → Bool) (k : Str) :
    (t.remove p).version k = if p k = true then 0 else t.version k := by
  simp only [version, row?_remove]
  split_ifs <;> rfl

/-- An empty key is never stored. -/
theorem row?_nil (t : Table) : t.row? [] = none := by
  rw [row?_none, List.mem_map]
  rintro ⟨r, hr, hkey⟩
  exact t.named r hr hkey

end Table

/-- A write that lands moves the row of its key to the next version and no other. -/
theorem version_put (t : Table) (key value description : Str) (expected : Option ℤ) (now : ℤ)
    (k : Str) :
    (put t key value description expected now).1.version k =
      if strip key = k ∧ (put t key value description expected now).2 = true then
        t.version k + 1
      else t.version k := by
  unfold put
  by_cases hkey : strip key = []
  · simp [hkey]
  · cases expected with
    | none =>
      by_cases hnew : t.row? (strip key) = none
      · simp [hkey, hnew, Table.version_insert]
      · simp [hkey, hnew, Table.version_update]
    | some v =>
      by_cases hv : v ≤ 0
      · by_cases hnew : t.row? (strip key) = none
        · simp [hkey, hv, hnew, Table.version_insert]
        · simp [hkey, hv, hnew]
      · by_cases hver : (t.row? (strip key)).any (fun r => (r.version : ℤ) == v) = true
        · have hrow : t.row? (strip key) ≠ none := fun h => by simp [h] at hver
          simp [hkey, hv, hver, Table.version_update _ _ _ _ _ _ hrow]
        · simp [hkey, hv, hver]

/-- A conditional write lands exactly when the key is at the expected version. -/
theorem put_expected (t : Table) (key value description : Str) (v : ℤ) (now : ℤ) :
    (put t key value description (some v) now).2 = true ↔
      strip key ≠ [] ∧ if v ≤ 0 then t.row? (strip key) = none
        else (t.version (strip key) : ℤ) = v := by
  unfold put
  by_cases hkey : strip key = []
  · simp [hkey]
  · by_cases hv : v ≤ 0
    · by_cases hnew : t.row? (strip key) = none <;> simp [hkey, hv, hnew]
    · cases hrow : t.row? (strip key) with
      | none =>
        simp [hkey, hv, hrow, Table.version]
        omega
      | some r =>
        by_cases hver : (r.version : ℤ) = v <;> simp [hkey, hv, hrow, hver, Table.version]

theorem version_delete (t : Table) (key k : Str) :
    (delete t key).1.version k =
      if strip key = k ∧ (delete t key).2 = true then 0 else t.version k := by
  unfold delete
  by_cases hkey : strip key = []
  · simp [hkey]
  · by_cases hk : strip key = k
    · subst hk
      cases hrow : t.row? (strip key) with
      | none => simp [hkey, Table.version_remove, Table.version_eq_zero.mpr hrow]
      | some r => simp [hkey, Table.version_remove]
    · simp [hkey, hk, Ne.symm hk, Table.version_remove]

theorem version_exec (t : Table) (op : Op) (key : Str) :
    (exec t op).1.version key = next (t.version key) (op.event key t) := by
  cases op with
  | get k => rfl
  | put k value description expected now =>
    simp only [exec, Op.event, version_put]
    split_ifs <;> rfl
  | delete k =>
    simp only [exec, Op.event, version_delete]
    split_ifs <;> rfl
  | sweep cap counted =>
    simp only [exec, Op.event, sweep, Table.version_remove, List.contains_eq_mem,
      decide_eq_true_eq]
    by_cases hev : key ∈ evicted t cap counted
    · cases hrow : t.row? key with
      | none => simp [hev, next, Table.version_eq_zero.mpr hrow]
      | some r => simp [hev, next]
    · simp [hev, next]

theorem version_run (t : Table) (ops : List Op) (key : Str) :
    (run t ops).version key = after (t.version key) (events key t ops) := by
  induction ops generalizing t with
  | nil => rfl
  | cons op ops ih =>
    rw [run, List.foldl_cons, ← run, ih, version_exec]
    rfl

end AskFable.Store

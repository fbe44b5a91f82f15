import AskFable.Bus.Daemon
import AskFable.Caching.Answers
import AskFable.General.Retention
import AskFable.Hub.Mirror
import AskFable.Store.LocalStore
import Mathlib.Data.List.Dedup

/-!
# The four sweeps

The bus, the context store, the answer cache and the session hub are all trimmed to nine tenths
of a cap, oldest rows first. Nine tenths of one is nothing, so a cap of one empties the table.
-/
namespace AskFable.Store
open AskFable.Text AskFable.Retention

/-! ### The bus, writer by writer -/

/-- The rows of a writer. -/
def rowsOf (t : Bus.BusTable) (writer : Str) : List Bus.BusRow :=
  t.rows.filter fun r => r.writer == writer

theorem keys_rowsOf (t : Bus.BusTable) (writer : Str) :
    ((rowsOf t writer).map Bus.BusRow.key).Nodup :=
  t.unique.sublist (List.filter_sublist.map _)

/-- One sweep of the rows of a writer. -/
def sweptRows (cap : ℕ) (rows : List Bus.BusRow) : List Bus.BusRow :=
  Retention.sweep Bus.BusRow.key (rows.insertionSort fun a b => a.writerTs ≤ b.writerTs) cap
    (cap * 9 / 10) rows

theorem sweepWriter_eq (cap : ℕ) (t : Bus.BusTable) (writer : Str) :
    Bus.sweepWriter cap t writer = if cap < (rowsOf t writer).length then
      t.remove fun key =>
        (Bus.oldestOf t writer ((rowsOf t writer).length - cap * 9 / 10)).contains key
    else t := rfl

theorem rowsOf_sweepWriter (cap : ℕ) (t : Bus.BusTable) (writer : Str) :
    rowsOf (Bus.sweepWriter cap t writer) writer = sweptRows cap (rowsOf t writer) := by
  rw [sweepWriter_eq, sweptRows, Retention.sweep]
  by_cases hover : cap < (rowsOf t writer).length
  · rw [if_pos hover, if_pos hover, rowsOf, Bus.BusTable.remove, List.filter_comm, outside]
    refine List.filter_congr fun r _ => ?_
    simp [Bus.oldestOf, rowsOf]
  · rw [if_neg hover, if_neg hover]

/-- The rows of the other writers have other keys. -/
theorem rowsOf_sweepWriter_of_ne (cap : ℕ) (t : Bus.BusTable) {writer other : Str}
    (h : other ≠ writer) : rowsOf (Bus.sweepWriter cap t writer) other = rowsOf t other := by
  rw [sweepWriter_eq]
  split_ifs
  · rw [rowsOf, Bus.BusTable.remove, List.filter_comm]
    refine List.filter_eq_self.mpr fun r hr => ?_
    obtain ⟨hmem, hwriter⟩ := List.mem_filter.mp hr
    simp only [Bool.not_eq_true', List.contains_eq_mem, decide_eq_false_iff_not]
    intro hevicted
    obtain ⟨r', hr', hkey⟩ := List.mem_map.mp hevicted
    have hmem' := (List.mem_insertionSort _).mp (List.mem_of_mem_take hr')
    obtain ⟨hrow', hwriter'⟩ := List.mem_filter.mp hmem'
    obtain rfl := List.inj_on_of_nodup_map t.unique hrow' hmem hkey
    exact h ((eq_of_beq hwriter).symm.trans (eq_of_beq hwriter'))
  · rfl

theorem rowsOf_foldl (cap : ℕ) {writers : List Str} (hnodup : writers.Nodup) (t : Bus.BusTable)
    (writer : Str) : rowsOf (writers.foldl (Bus.sweepWriter cap) t) writer =
      if writer ∈ writers then sweptRows cap (rowsOf t writer) else rowsOf t writer := by
  induction writers generalizing t with
  | nil => simp
  | cons first writers ih =>
    obtain ⟨hfirst, hrest⟩ := List.nodup_cons.mp hnodup
    rw [List.foldl_cons, ih hrest]
    by_cases hw : writer = first
    · subst hw
      rw [if_neg hfirst, if_pos List.mem_cons_self, rowsOf_sweepWriter]
    · rw [rowsOf_sweepWriter_of_ne cap t hw]
      simp [hw]

theorem rowsOf_sweepBus {cap : ℕ} (hcap : 1 ≤ cap) (t : Bus.BusTable) (writer : Str) :
    rowsOf (Bus.sweepBus t cap) writer = sweptRows cap (rowsOf t writer) := by
  rw [Bus.sweepBus, if_neg (by omega), rowsOf_foldl cap (List.nodup_dedup _)]
  split_ifs with hmem
  · rfl
  · have hnil : rowsOf t writer = [] := by
      refine List.filter_eq_nil_iff.mpr fun r hr hwriter => hmem ?_
      exact List.mem_dedup.mpr (List.mem_map.mpr ⟨r, hr, eq_of_beq hwriter⟩)
    simp [hnil, sweptRows, Retention.sweep]

/-! ### The other tables -/

theorem toNat_count (n cap : ℕ) : ((n : ℤ) - (cap : ℤ) * 9 / 10).toNat = n - cap * 9 / 10 := by
  omega

theorem rows_sweep {cap : ℕ} (hcap : 1 ≤ cap) (t : Table) :
    (Store.sweep t cap t.rows.length).rows = Retention.sweep Row.key
      (t.rows.insertionSort fun a b => a.ts ≤ b.ts) cap (cap * 9 / 10) t.rows := by
  have hpos : ¬(cap : ℤ) ≤ 0 := by omega
  unfold Store.sweep evicted Retention.sweep
  rw [if_neg hpos]
  by_cases hover : cap < t.rows.length
  · rw [if_pos hover, if_pos (Int.ofNat_lt.mpr hover), toNat_count, Table.remove, outside]
    refine List.filter_congr fun r _ => ?_
    simp [Table.oldest]
  · rw [if_neg hover, if_neg (mt Int.ofNat_lt.mp hover), Table.remove]
    simp

theorem sweep_answers {α : Type*} {cap : ℕ} (hcap : 1 ≤ cap) (ttl : ℤ) (now : ℚ)
    (rows : List (Caching.Row α)) :
    Caching.sweep ttl now cap rows = Retention.sweep Caching.Row.key
      ((Caching.unexpired ttl now rows).insertionSort fun a b => a.ts ≤ b.ts) cap (cap * 9 / 10)
      (Caching.unexpired ttl now rows) := by
  have hpos : 0 < (cap : ℤ) := by omega
  unfold Caching.sweep Caching.evicted Retention.sweep
  dsimp only
  by_cases hover : cap < (Caching.unexpired ttl now rows).length
  · rw [if_pos hover, if_pos ⟨hpos, Int.ofNat_lt.mpr hover⟩, toNat_count, outside]
    exact List.filter_congr fun r _ => by simp
  · rw [if_neg hover, if_neg fun hboth => hover (Int.ofNat_lt.mp hboth.2)]
    simp

/-- What rounding a product with 0.9 gives. -/
def NinetyPercent (env : Hub.Env) (cap : ℕ) (target : ℕ) : Prop :=
  env.ninetyPercent cap = target ∧ target ≤ cap ∧ (0 < target ↔ 2 ≤ cap)

theorem turns_sweep {cap target : ℕ} (hcap : 1 ≤ cap) {env : Hub.Env}
    (henv : NinetyPercent env cap target) (db : Hub.Db) :
    ((Hub.sweep env cap db.turns.length).run db).turns = Retention.sweep Hub.Turn.id
      (db.turns.insertionSort fun a b => a.ts ≤ b.ts) cap target db.turns := by
  obtain ⟨htarget, hle, -⟩ := henv
  have hpos : ¬(cap : ℤ) ≤ 0 := by omega
  unfold Hub.sweep Retention.sweep
  rw [if_neg hpos]
  by_cases hover : cap < db.turns.length
  · have hkeep : ¬((db.turns.length : ℤ) - target < 0) := by omega
    rw [if_pos hover, if_pos (Int.ofNat_lt.mpr hover), Transaction.Script.run_ofList, htarget]
    simp only [List.foldl_cons, List.foldl_nil, Hub.recount, Hub.deleteOrphans, Hub.evictTurns,
      Hub.deleteTurns, Hub.oldest, if_neg hkeep, outside]
    refine List.filter_congr fun r _ => ?_
    have hcount : ((db.turns.length : ℤ) - target).toNat = db.turns.length - target := by omega
    simp [hcount]
  · rw [if_neg hover, if_neg (mt Int.ofNat_lt.mp hover)]
    rfl

/-! ### What is kept -/

/-- Each sweep keeps the newest rows as far as its cap allows, in every table, exactly when the
cap is at least two or there is at most one row. -/
theorem sweeps_keepNewest_iff {α : Type*} {cap : ℕ} (hcap : 1 ≤ cap) :
    (∀ t : Bus.BusTable,
      (∀ writer, KeepsNewest Bus.BusRow.writerTs cap (rowsOf t writer)
        (rowsOf (Bus.sweepBus t cap) writer)) ↔
      2 ≤ cap ∨ ∀ writer, (rowsOf t writer).length ≤ 1) ∧
    (∀ t : Table, KeepsNewest Row.ts cap t.rows (Store.sweep t cap t.rows.length).rows ↔
      2 ≤ cap ∨ t.rows.length ≤ 1) ∧
    (∀ (ttl : ℤ) (now : ℚ) (rows : List (Caching.Row α)), (rows.map Caching.Row.key).Nodup →
      (KeepsNewest Caching.Row.ts cap (Caching.unexpired ttl now rows)
        (Caching.sweep ttl now cap rows) ↔
      2 ≤ cap ∨ (Caching.unexpired ttl now rows).length ≤ 1)) ∧
    ∀ (env : Hub.Env) (target : ℕ) (db : Hub.Db), NinetyPercent env cap target →
      (db.turns.map Hub.Turn.id).Nodup →
      (KeepsNewest Hub.Turn.ts cap db.turns ((Hub.sweep env cap db.turns.length).run db).turns ↔
      2 ≤ cap ∨ db.turns.length ≤ 1) := by
  have hle : cap * 9 / 10 ≤ cap := by omega
  have hpos : 0 < cap * 9 / 10 ↔ 2 ≤ cap := by omega
  refine ⟨fun t => ?_, fun t => ?_, fun ttl now rows hkeys => ?_,
    fun env target db henv hids => ?_⟩
  · rw [← forall_or_left]
    refine forall_congr' fun writer => ?_
    rw [rowsOf_sweepBus hcap]
    exact keepsNewest_insertionSort_iff (keys_rowsOf t writer) hcap hle hpos
  · rw [rows_sweep hcap]
    exact keepsNewest_insertionSort_iff t.unique hcap hle hpos
  · rw [sweep_answers hcap]
    exact keepsNewest_insertionSort_iff (hkeys.sublist (List.filter_sublist.map _)) hcap hle hpos
  · rw [turns_sweep hcap henv]
    exact keepsNewest_insertionSort_iff hids hcap henv.2.1 henv.2.2

/-- A hub whose turns are all of one session. -/
def turnAt (id : ℕ) (ts : ℚ) : Hub.Turn := ⟨id, ts, [], [], [], [], [], [], [], none, none⟩

theorem sweeps_keepNewest_iff_two :
    KeepsNewest Caching.Row.ts 2 (Caching.unexpired 10 5 [⟨txt "a", (), 1⟩, ⟨txt "b", (), 2⟩])
        (Caching.sweep 10 5 2 [⟨txt "a", (), 1⟩, ⟨txt "b", (), 2⟩]) ∧
      KeepsNewest Hub.Turn.ts 2 [turnAt 1 1, turnAt 2 2, turnAt 3 2]
        ((Hub.sweep ⟨fun s => (s, 0), fun cap => cap * 9 / 10⟩ 2 3).run
          ⟨[turnAt 1 1, turnAt 2 2, turnAt 3 2], [], 3⟩).turns :=
  ⟨((@sweeps_keepNewest_iff Unit 2 (by decide)).2.2.1 10 5 _ (by decide)).mpr
      (.inl le_rfl),
    ((@sweeps_keepNewest_iff Unit 2 (by decide)).2.2.2 _ 1
      ⟨[turnAt 1 1, turnAt 2 2, turnAt 3 2], [], 3⟩ ⟨rfl, by decide, by decide⟩ (by decide)).mpr
      (.inl le_rfl)⟩

/-- A context store after two puts. -/
def twoContexts : Table := (put (put .empty (txt "a") [] [] none 1).1 (txt "b") [] [] none 2).1

/-- With a cap of one the sweep takes the newest row too. -/
theorem sweep_takes_newest :
    (put (put .empty (txt "a") [] [] none 1).1 (txt "b") [] [] none 2).2 = true ∧
      (Store.sweep twoContexts 1 twoContexts.rows.length).rows = [] ∧
      ¬KeepsNewest Row.ts 1 twoContexts.rows
        (Store.sweep twoContexts 1 twoContexts.rows.length).rows := by
  have hempty : (Store.sweep twoContexts 1 twoContexts.rows.length).rows = [] := by decide
  refine ⟨by decide, hempty, fun h => ?_⟩
  obtain ⟨a, ha, -⟩ := h.latest (by decide)
  rw [hempty] at ha
  exact absurd ha List.not_mem_nil

end AskFable.Store

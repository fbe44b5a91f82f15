import AskFable.Store.LocalStore

/-!
# Lost updates on the local store

A conditional write compares version numbers, and a row that was deleted or evicted
starts again at version 1. So the write notices every change since the read, except
when the row was removed and then written back up to the version that was read. The
save loop of `ask_falsify` inherits both halves.
-/
namespace AskFable.Store
open AskFable.Text AskFable.Versioned

theorem rowVersioned_version {t : Table} {key value : Str} {v : ℕ}
    (h : rowVersioned t key = some (value, v)) :
    strip key ≠ [] ∧ 0 < v ∧ t.version (strip key) = v := by
  unfold rowVersioned at h
  split_ifs at h with hkey
  obtain ⟨r, hr, hv⟩ := Option.map_eq_some_iff.mp h
  obtain ⟨-, rfl⟩ := Prod.mk.inj hv
  refine ⟨hkey, t.versioned r (Table.row?_some hr).1, ?_⟩
  rw [Table.version, hr, Option.elim_some]

/-- A write with the version of an earlier read lands exactly when the version is back. -/
theorem put_after_read {t : Table} {key value : Str} {v : ℕ}
    (h : rowVersioned t key = some (value, v)) (mid : List Op) (w d : Str) (now : ℤ) :
    (put (run t mid) key w d (some v) now).2 = true ↔
      after v (events (strip key) t mid) = v := by
  obtain ⟨hkey, hpos, hv⟩ := rowVersioned_version h
  have hle : ¬(v : ℤ) ≤ 0 := by omega
  rw [put_expected, if_neg hle, version_run, hv]
  simp only [hkey, ne_eq, not_false_eq_true, true_and]
  omega

/-! ### The save loop of `ask_falsify` -/

/-- What a run keeps of the store: `ledger_version` and `persist_ok`, and when it loaded
and last saved. -/
structure FalsifyRun where
  version : ℕ
  persistOk : Bool
  loadedAt : ℕ
  savedAt : Option ℕ

/-- The store, a clock that counts operations, and the runs on one session. -/
structure World where
  table : Table
  clock : ℕ
  runs : ℕ → Option FalsifyRun

/-- An operation of some other client, or a load or save of a run. A load or save that
does not reach the store (`up = false`) is answered `None` or `False`. -/
inductive Act
  | other (op : Op)
  | load (r : ℕ) (up : Bool)
  | save (r : ℕ) (content : Str) (now : ℤ) (up : Bool)

/-- `_load_ledger`: the version of the row, 0 for an absent key. -/
def loadedVersion (t : Table) (key : Str) : ℕ := (rowVersioned t key).elim 0 Prod.snd

/-- `_save_ledger`. -/
def saveLedger (t : Table) (key content : Str) (version : ℕ) (now : ℤ) : Table × Bool :=
  put t key content (txt "ask_falsify ledger") (some version) now

def World.step (key : Str) (w : World) : Act → World
  | .other op => { w with table := (exec w.table op).1, clock := w.clock + 1 }
  | .load r up =>
    if up then
      { w with
        clock := w.clock + 1
        runs := Function.update w.runs r
          (some ⟨loadedVersion w.table key, true, w.clock, none⟩) }
    -- the run refuses to start on a degraded store
    else { w with clock := w.clock + 1 }
  | .save r content now up =>
    match w.runs r with
    | none => { w with clock := w.clock + 1 }
    | some f =>
      if up = true ∧ (saveLedger w.table key content f.version now).2 = true then
        { table := (saveLedger w.table key content f.version now).1
          clock := w.clock + 1
          runs := Function.update w.runs r
            (some { f with version := f.version + 1, savedAt := some w.clock }) }
      else
        { w with
          clock := w.clock + 1
          runs := Function.update w.runs r (some { f with persistOk := false }) }

/-- No delete or sweep removes the row of `key`. -/
def Kept (key : Str) (w : World) : List Act → Prop
  | [] => True
  | a :: acts =>
    (∀ op, a = .other op → op.event (strip key) w.table ≠ .remove) ∧ Kept key (w.step key a) acts

/-! ### The loop is an optimistic reader -/

def FalsifyRun.view (f : FalsifyRun) : View := ⟨f.version, f.loadedAt, f.savedAt⟩

def World.view (key : Str) (w : World) : Optimistic ℕ :=
  ⟨w.table.version (strip key), w.clock, fun r => (w.runs r).map FalsifyRun.view⟩

def Act.move (key : Str) (w : World) : Act → Move ℕ
  | .other op => .other (op.event (strip key) w.table)
  | .load r up => if up then .load r else .other .idle
  | .save r _ _ up => if up = true ∧ strip key ≠ [] then .save r else .other .idle

theorem loadedVersion_eq (t : Table) (key : Str) : loadedVersion t key = t.version (strip key) := by
  unfold loadedVersion rowVersioned
  by_cases hkey : strip key = []
  · rw [if_pos hkey, hkey, Option.elim_none, Table.version_eq_zero.mpr t.row?_nil]
  · rw [if_neg hkey, Table.version]
    cases t.row? (strip key) <;> rfl

theorem saveLedger_lands (t : Table) (key content : Str) (version : ℕ) (now : ℤ) :
    (saveLedger t key content version now).2 = true ↔
      strip key ≠ [] ∧ version = t.version (strip key) := by
  rw [saveLedger, put_expected]
  refine and_congr_right fun _ => ?_
  by_cases hv : (version : ℤ) ≤ 0
  · rw [if_pos hv, ← Table.version_eq_zero]
    omega
  · rw [if_neg hv]
    omega

theorem view_update (runs : ℕ → Option FalsifyRun) (r : ℕ) (f : FalsifyRun) :
    (fun q => (Function.update runs r (some f) q).map FalsifyRun.view) =
      Function.update (fun q => (runs q).map FalsifyRun.view) r (some f.view) := by
  funext q
  by_cases hq : q = r
  · subst hq
    simp
  · simp [hq]

/-- A save that does not land leaves what the run knows of the versions. -/
theorem view_persist (runs : ℕ → Option FalsifyRun) {r : ℕ} {f : FalsifyRun}
    (hf : runs r = some f) :
    (fun q => (Function.update runs r (some { f with persistOk := false }) q).map
      FalsifyRun.view) = fun q => (runs q).map FalsifyRun.view := by
  rw [view_update]
  funext q
  by_cases hq : q = r
  · subst hq
    simp [hf, FalsifyRun.view]
  · simp [hq]

theorem view_save (key : Str) (w : World) (r : ℕ) (content : Str) (now : ℤ) (up : Bool) :
    (w.step key (.save r content now up)).view key =
      (w.view key).step ((Act.save r content now up).move key w) := by
  cases hf : w.runs r with
  | none =>
    have hnone : (w.view key).views r = none := by simp only [World.view, hf, Option.map_none]
    have hstep : w.step key (.save r content now up) = { w with clock := w.clock + 1 } := by
      simp only [World.step, hf]
    rw [hstep, Act.move]
    split_ifs
    · rw [Optimistic.step_save_behind fun v hv => by simp [hnone] at hv]
      rfl
    · rfl
  | some f =>
    have hview : (w.view key).views r = some f.view := by
      simp only [World.view, hf, Option.map_some]
    by_cases hlands : up = true ∧ (saveLedger w.table key content f.version now).2 = true
    · obtain ⟨hkey, hver⟩ := (saveLedger_lands _ _ _ _ _).mp hlands.2
      have hput : (saveLedger w.table key content f.version now).1.version (strip key) =
          w.table.version (strip key) + 1 := by
        rw [saveLedger, version_put, if_pos ⟨rfl, hlands.2⟩]
      have hstep : w.step key (.save r content now up) =
          { table := (saveLedger w.table key content f.version now).1
            clock := w.clock + 1
            runs := Function.update w.runs r
              (some { f with version := f.version + 1, savedAt := some w.clock }) } := by
        simp only [World.step, hf, if_pos hlands]
      rw [hstep, Act.move, if_pos ⟨hlands.1, hkey⟩, Optimistic.step_save_level hview hver]
      rw [hver] at hput
      simp only [World.view, view_update, FalsifyRun.view, hver, hput]
    · have hstep : (w.step key (.save r content now up)).view key =
          { w.view key with clock := w.clock + 1 } := by
        simp only [World.step, hf, if_neg hlands, World.view, view_persist w.runs hf]
      rw [hstep, Act.move]
      split_ifs with hup
      · have hver : f.version ≠ w.table.version (strip key) := fun h =>
          hlands ⟨hup.1, (saveLedger_lands _ _ _ _ _).mpr ⟨hup.2, h⟩⟩
        rw [Optimistic.step_save_behind fun v hv => by
          rw [hview, Option.some.injEq] at hv
          exact hv ▸ hver]
        rfl
      · rfl

theorem view_step (key : Str) (w : World) (a : Act) :
    (w.step key a).view key = (w.view key).step (a.move key w) := by
  cases a with
  | other op =>
    simp only [World.step, World.view, Act.move, Optimistic.step, version_exec]
  | load r up =>
    cases up with
    | false => rfl
    | true =>
      simp only [World.step, World.view, Act.move, Optimistic.step, if_true, view_update,
        FalsifyRun.view, loadedVersion_eq]
  | save r content now up => exact view_save key w r content now up

/-- Runs on a row that is not removed are apart: of two that saved, one loaded only after
the other's last save. -/
theorem run_fresh {key : Str} {w : World} (h : Fresh (w.view key)) {acts : List Act}
    (hkept : Kept key w acts) : Fresh ((acts.foldl (World.step key) w).view key) := by
  induction acts generalizing w with
  | nil => exact h
  | cons a acts ih =>
    refine ih ?_ hkept.2
    rw [view_step]
    refine h.step fun hmove => ?_
    cases a with
    | other op =>
      simp only [Act.move, Move.other.injEq] at hmove
      exact hkept.1 op rfl hmove
    | load r up =>
      simp only [Act.move] at hmove
      split_ifs at hmove
      simp at hmove
    | save r content now up =>
      simp only [Act.move] at hmove
      split_ifs at hmove
      simp at hmove

/-- When a conditional write notices that the row has changed, and what that means for
overlapping runs: exactly as long as the row is not removed and written back. -/
theorem conditional_put_detects (t : Table) (key : Str) :
    (∀ (value : Str) (v : ℕ), rowVersioned t key = some (value, v) →
      ∀ (mid : List Op) (w d : Str) (now : ℤ),
        ((put (run t mid) key w d (some v) now).2 = true →
          ∀ e ∈ events (strip key) t mid, e = .idle) ↔
        (.remove ∉ events (strip key) t mid ∨ writesSince (events (strip key) t mid) ≠ v)) ∧
    (∀ (w d : Str) (v now : ℤ), v ≤ 0 →
      (put t key w d (some v) now).2 = true → t.row? (strip key) = none) ∧
    ∀ acts : List Act, Kept key ⟨t, 0, fun _ => none⟩ acts →
      ∀ (a b : ℕ) (f g : FalsifyRun) (i j : ℕ), a ≠ b →
        (acts.foldl (World.step key) ⟨t, 0, fun _ => none⟩).runs a = some f →
        (acts.foldl (World.step key) ⟨t, 0, fun _ => none⟩).runs b = some g →
        f.savedAt = some i → g.savedAt = some j → i < g.loadedAt ∨ j < f.loadedAt := by
  refine ⟨fun value v h mid w d now => ?_, fun w d v now hv hput => ?_,
    fun acts hkept a b f g i j hab hf hg hi hj => ?_⟩
  · rw [put_after_read h]
    exact unchanged_iff
  · rw [put_expected, if_pos hv] at hput
    exact hput.2
  · have hfresh := run_fresh (Fresh.start (t.version (strip key)) 0) hkept
    refine hfresh.apart a f.view b g.view (Ne.symm hab) ?_ ?_ i j hi hj
    · simp only [World.view, hf, Option.map_some]
    · simp only [World.view, hg, Option.map_some]

/-- A row at version 1 under the key `k`. -/
def oneRow : Table where
  rows := [⟨txt "k", txt "a", 0, [], 1⟩]
  unique := by simp
  named := by
    intro r hr
    rw [List.mem_singleton.mp hr]
    decide
  versioned := by
    intro r hr
    rw [List.mem_singleton.mp hr]
    decide

/-- Another client overwrites the row: the write at the version read before is refused. -/
theorem conditional_put_detects_oneRow :
    rowVersioned oneRow (txt "k") = some (txt "a", 1) ∧
      (((put (run oneRow [.put (txt "k") (txt "b") [] none 1]) (txt "k") (txt "c") [] (some 1)
          2).2 = true →
        ∀ e ∈ events (txt "k") oneRow [.put (txt "k") (txt "b") [] none 1], e = .idle) ↔
      (.remove ∉ events (txt "k") oneRow [.put (txt "k") (txt "b") [] none 1] ∨
        writesSince (events (txt "k") oneRow [.put (txt "k") (txt "b") [] none 1]) ≠ 1)) :=
  ⟨by decide, (conditional_put_detects oneRow (txt "k")).1 (txt "a") 1 (by decide) _ _ _ _⟩

/-- Another client deletes the row and writes it anew. -/
def recreate : List Op := [.delete (txt "k"), .put (txt "k") (txt "b") [] none 1]

/-- The row is not there, run 1 loads and saves, another client deletes the row, run 2
saves at version 0; run 1 then saves at version 1, over the save of run 2. -/
def recreatedRuns : List Act :=
  [.load 1 true, .load 2 true, .save 1 (txt "p") 1 true, .other (.delete (txt "k")),
    .save 2 (txt "q") 2 true, .save 1 (txt "r") 3 true]

/-- A read at version 1, a deletion and a re-creation, and the write expecting version 1
lands; likewise two overlapping runs both save and report it. -/
theorem recreated_row_unnoticed :
    (rowVersioned oneRow (txt "k") = some (txt "a", 1) ∧
      events (txt "k") oneRow recreate = [.remove, .write] ∧
      (put (run oneRow recreate) (txt "k") (txt "c") [] (some 1) 2).2 = true) ∧
    ((recreatedRuns.foldl (World.step (txt "k")) ⟨.empty, 0, fun _ => none⟩).runs 1).map
        (fun f => (f.persistOk, f.loadedAt, f.savedAt)) = some (true, 0, some 5) ∧
    ((recreatedRuns.foldl (World.step (txt "k")) ⟨.empty, 0, fun _ => none⟩).runs 2).map
        (fun f => (f.persistOk, f.loadedAt, f.savedAt)) = some (true, 1, some 4) := by
  decide

end AskFable.Store

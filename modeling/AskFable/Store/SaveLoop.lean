import AskFable.Store.LedgerLoad

/-!
# The rounds of a run and what it reports as saved

`ask_falsify` saves its whole ledger after every round. A save that fails is remembered
for the rest of the run, and a later one that lands does not take that back.
-/
namespace AskFable.Store.Session
open AskFable.Text

/-- A round as the store sees it: what other clients did since the last save, the text of
the ledger the round leaves, and its save. -/
structure Round where
  others : List Op
  ledger : Str
  /-- `is_fixpoint`: the round was the last. -/
  fixpoint : Bool
  /-- The save reaches the store. -/
  up : Bool
  now : ℤ
  /-- Cap and row count of the sweep, when it is the turn of this write to sweep. -/
  sweep : Option (ℤ × ℕ)

/-- The store and the variables of the round loop. -/
structure Saving where
  table : Table
  version : ℕ
  persistOk : Bool
  ledger : Str

/-- The store that the save of a round meets. -/
def Saving.met (s : Saving) (r : Round) : Table := run s.table r.others

def sweepAfter (t : Table) : Option (ℤ × ℕ) → Table
  | none => t
  | some (cap, counted) => Store.sweep t cap counted

/-- The save at the end of a round. -/
def saveRound (key : Str) (s : Saving) (r : Round) : Saving :=
  let saved := saveLedger (s.met r) key r.ledger s.version r.now
  if r.up = true ∧ saved.2 = true then
    ⟨sweepAfter saved.1 r.sweep, s.version + 1, s.persistOk, r.ledger⟩
  else ⟨s.met r, s.version, false, r.ledger⟩

def saveRounds (key : Str) (s : Saving) : List Round → Saving
  | [] => s
  | r :: rounds =>
    if r.fixpoint then saveRound key s r else saveRounds key (saveRound key s r) rounds

/-- What a run that ended tells its caller and the reputation store. -/
structure Reported where
  ledger : Str
  /-- The key is in the payload only when the flag has dropped. -/
  ledgerPersisted : Option Bool
  /-- `record_ledger_outcomes` ran. -/
  recorded : Bool

/-- `_falsify` from its load on; a run whose first turn fails plays no round. -/
def falsifyRun (key : Str) (t : Table) (rounds : List Round) : Reported × Table :=
  let s := saveRounds key ⟨t, loadedVersion t key, true, []⟩ rounds
  (⟨s.ledger, if s.persistOk then none else some false, s.persistOk⟩, s.table)

/-- The payload denies the save, and the reputation is withheld, exactly when the store
does not hold the ledger that is returned. -/
def Exact (key : Str) (out : Reported × Table) : Prop :=
  (out.1.ledgerPersisted = some false ↔
    (Shelf.table out.2).value key ≠ some out.1.ledger) ∧
  (out.1.recorded = false ↔ (Shelf.table out.2).value key ≠ some out.1.ledger)

/-! ### The saves of a run -/

/-- Each save that is tried, with the variables it starts from. -/
def attempts (key : Str) (s : Saving) : List Round → List (Saving × Round)
  | [] => []
  | r :: rounds =>
    (s, r) :: if r.fixpoint then [] else attempts key (saveRound key s r) rounds

/-- The store is reached and the row is still at the version of the run. -/
def Lands (key : Str) (p : Saving × Round) : Prop :=
  p.2.up = true ∧ strip key ≠ [] ∧ p.1.version = (p.1.met p.2).version (strip key)

instance (key : Str) (p : Saving × Round) : Decidable (Lands key p) := by
  unfold Lands
  infer_instance

theorem lands_iff {key : Str} {s : Saving} {r : Round} :
    Lands key (s, r) ↔
      r.up = true ∧ (saveLedger (s.met r) key r.ledger s.version r.now).2 = true := by
  rw [saveLedger_lands]
  rfl

theorem saveRound_lands {key : Str} {s : Saving} {r : Round} (h : Lands key (s, r)) :
    saveRound key s r =
      ⟨sweepAfter (saveLedger (s.met r) key r.ledger s.version r.now).1 r.sweep,
        s.version + 1, s.persistOk, r.ledger⟩ := by
  rw [saveRound, if_pos (lands_iff.mp h)]

theorem saveRound_fails {key : Str} {s : Saving} {r : Round} (h : ¬Lands key (s, r)) :
    saveRound key s r = ⟨s.met r, s.version, false, r.ledger⟩ := by
  rw [saveRound, if_neg (mt lands_iff.mpr h)]

theorem saveRound_ledger (key : Str) (s : Saving) (r : Round) :
    (saveRound key s r).ledger = r.ledger := by
  by_cases h : Lands key (s, r)
  · rw [saveRound_lands h]
  · rw [saveRound_fails h]

/-- The flag is up after a save as long as it was and the save landed. -/
theorem saveRound_persistOk (key : Str) (s : Saving) (r : Round) :
    (saveRound key s r).persistOk = true ↔ s.persistOk = true ∧ Lands key (s, r) := by
  by_cases h : Lands key (s, r)
  · simp [saveRound_lands h, h]
  · simp [saveRound_fails h, h]

theorem attempts_eq_nil {key : Str} {s : Saving} {rounds : List Round} :
    attempts key s rounds = [] ↔ rounds = [] := by
  cases rounds <;> simp [attempts]

/-- A run ends as its last save leaves it, and the flag before that save says whether all
earlier ones landed. -/
theorem attempts_last {key : Str} {s s' : Saving} {rounds : List Round} {r : Round}
    {earlier : List (Saving × Round)} (h : attempts key s rounds = earlier ++ [(s', r)]) :
    saveRounds key s rounds = saveRound key s' r ∧
      (s'.persistOk = true ↔ s.persistOk = true ∧ ∀ p ∈ earlier, Lands key p) := by
  induction rounds generalizing s earlier with
  | nil => simp [attempts] at h
  | cons r₀ rounds ih =>
    simp only [attempts] at h
    cases earlier with
    | nil =>
      obtain ⟨hhead, htail⟩ := List.cons.inj h
      obtain ⟨rfl, rfl⟩ := Prod.mk.inj hhead
      refine ⟨?_, by simp⟩
      by_cases hfix : r₀.fixpoint = true
      · rw [saveRounds, if_pos hfix]
      · rw [if_neg hfix, attempts_eq_nil] at htail
        rw [saveRounds, if_neg hfix, htail, saveRounds]
    | cons p earlier =>
      obtain ⟨hhead, htail⟩ := List.cons.inj h
      by_cases hfix : r₀.fixpoint = true
      · rw [if_pos hfix] at htail
        simp at htail
      · rw [if_neg hfix] at htail
        obtain ⟨hend, hflag⟩ := ih htail
        refine ⟨by rw [saveRounds, if_neg hfix, hend], ?_⟩
        rw [hflag, saveRound_persistOk, ← hhead, List.forall_mem_cons, and_assoc]

/-- The rows a sweep leaves. -/
theorem value_sweepAfter (key : Str) (t : Table) (sweep : Option (ℤ × ℕ)) :
    (Shelf.table (sweepAfter t sweep)).value key =
      if ∃ c, sweep = some c ∧ strip key ∈ evicted t c.1 c.2 then none
      else (Shelf.table t).value key := by
  cases sweep with
  | none => simp [sweepAfter]
  | some c =>
    simp only [sweepAfter, Shelf.value, Store.sweep, Table.row?_remove, List.contains_eq_mem,
      decide_eq_true_eq, Option.some.injEq, exists_eq_left']
    split_ifs <;> rfl

/-- The sweep of a save that landed evicts the row it wrote. -/
def SweptAway (key : Str) (p : Saving × Round) : Prop :=
  ∃ c, p.2.sweep = some c ∧ strip key ∈
    evicted (saveLedger (p.1.met p.2) key p.2.ledger p.1.version p.2.now).1 c.1 c.2

/-- The store after a save holds its ledger. -/
theorem value_saveRound {key : Str} {s : Saving} {r : Round} :
    (Shelf.table (saveRound key s r).table).value key = some r.ledger ↔
      if Lands key (s, r) then ¬SweptAway key (s, r)
      else (Shelf.table (s.met r)).value key = some r.ledger := by
  by_cases h : Lands key (s, r)
  · have hvalue : ((Shelf.table (s.met r)).save key r.ledger s.version r.now).1.value key =
        some r.ledger := Shelf.value_save (lands_iff.mp h).2
    rw [saveRound_lands h, if_pos h, value_sweepAfter]
    simp only [Shelf.save] at hvalue
    rw [hvalue]
    split_ifs with hswept
    · exact iff_of_false (by simp) (not_not.mpr hswept)
    · exact iff_of_true rfl hswept
  · rw [saveRound_fails h, if_neg h]

/-- The last save has its way with the flag: it lands and none before it failed, or, when it
fails, the row does not by chance hold the same text; when its own sweep takes the row
away, one before it did fail. -/
def LastDecides (key : Str) (tries : List (Saving × Round)) : Prop :=
  ∀ earlier last, tries = earlier ++ [last] →
    if Lands key last then
      (SweptAway key last ↔ ∃ p ∈ earlier, ¬Lands key p)
    else (Shelf.table (last.1.met last.2)).value key ≠ some last.2.ledger

/-- Of the flag, both reports say the same. -/
theorem exact_iff (key : Str) (t : Table) (rounds : List Round) :
    Exact key (falsifyRun key t rounds) ↔
      ((saveRounds key ⟨t, loadedVersion t key, true, []⟩ rounds).persistOk = true ↔
        (Shelf.table (falsifyRun key t rounds).2).value key =
          some (falsifyRun key t rounds).1.ledger) := by
  unfold Exact falsifyRun
  generalize saveRounds key ⟨t, loadedVersion t key, true, []⟩ rounds = s
  cases h : s.persistOk <;> simp [h]

/-- A run that played a round reports the fate of its ledger exactly when the last save
decides the flag. -/
theorem falsifyRun_exact_iff (key : Str) (t : Table) (first : Round) (rest : List Round) :
    Exact key (falsifyRun key t (first :: rest)) ↔
      LastDecides key (attempts key ⟨t, loadedVersion t key, true, []⟩ (first :: rest)) := by
  have hne : attempts key ⟨t, loadedVersion t key, true, []⟩ (first :: rest) ≠ [] := by
    rw [Ne, attempts_eq_nil]
    exact List.cons_ne_nil _ _
  obtain ⟨earlier, ⟨s, r⟩, htries⟩ := (List.eq_nil_or_concat' _).resolve_left hne
  obtain ⟨hend, hflag⟩ := attempts_last htries
  have hdecides : LastDecides key (earlier ++ [(s, r)]) ↔
      if Lands key (s, r) then (SweptAway key (s, r) ↔ ∃ p ∈ earlier, ¬Lands key p)
      else (Shelf.table (s.met r)).value key ≠ some r.ledger := by
    refine ⟨fun h => h earlier (s, r) rfl, fun h e l heq => ?_⟩
    obtain ⟨rfl, rfl⟩ := List.append_inj' heq rfl |>.imp_right List.singleton_inj.mp
    exact h
  rw [exact_iff, htries, hdecides]
  simp only [falsifyRun, hend, saveRound_ledger, value_saveRound, saveRound_persistOk, hflag,
    true_and]
  by_cases hlast : Lands key (s, r)
  · simp only [hlast, and_true, if_true]
    rw [show (∃ p ∈ earlier, ¬Lands key p) ↔ ¬∀ p ∈ earlier, Lands key p by simp]
    exact iff_not_comm
  · simp [hlast]

/-- Two rounds on an absent key: the first save does not reach the store, the second
does. -/
def oneMissed : List Round :=
  [⟨[], txt "round 1", false, false, 0, none⟩, ⟨[], txt "round 2", false, true, 0, none⟩]

/-- The store holds the ledger that is returned, and the run denies it. -/
theorem oneMissed_reported_lost :
    (falsifyRun (txt "k") .empty oneMissed).1.ledgerPersisted = some false ∧
    (falsifyRun (txt "k") .empty oneMissed).1.recorded = false ∧
    (Shelf.table (falsifyRun (txt "k") .empty oneMissed).2).value (txt "k") =
      some (falsifyRun (txt "k") .empty oneMissed).1.ledger ∧
    ¬Exact (txt "k") (falsifyRun (txt "k") .empty oneMissed) := by
  have hdenied : (falsifyRun (txt "k") .empty oneMissed).1.ledgerPersisted = some false := by
    decide
  have hheld : (Shelf.table (falsifyRun (txt "k") .empty oneMissed).2).value (txt "k") =
      some (falsifyRun (txt "k") .empty oneMissed).1.ledger := by
    decide
  exact ⟨hdenied, by decide, hheld, fun h => h.1.mp hdenied hheld⟩

end AskFable.Store.Session

import AskFable.General.Tally
import AskFable.General.Transaction
import AskFable.Python.Text
import Mathlib.Data.List.Induction
import Mathlib.Data.List.Sort
import Mathlib.Data.Rat.Defs
import Mathlib.Algebra.Order.Ring.Rat

/-!
# The session hub

Every process mirrors its turns into one SQLite file: `turns` has a row for each turn,
`session_meta` one for each project, session and agent, with the number of its turns. A turn
is written in one transaction; old turns are swept and junk turns are pruned in others, and
any of them may stop at any statement. The two tables agree after every run.
-/
namespace AskFable.Hub
open AskFable.Text AskFable.Tally AskFable.Transaction

/-- The primary key of `session_meta`. -/
structure Key where
  project : Str
  sessionKey : Str
  agentId : Str
  deriving DecidableEq

/-- A row of `turns`. -/
structure Turn where
  id : ℕ
  ts : ℚ
  agentId : Str
  project : Str
  sessionKey : Str
  question : Str
  answer : Str
  oracle : Str
  status : Str
  sdkSessionId : Option Str
  durationMs : Option ℤ
  deriving DecidableEq

/-- A row of `session_meta`. -/
structure SessionMeta where
  sessionKey : Str
  agentId : Str
  project : Str
  lastQuestion : Str
  lastAnswer : Str
  lastOracle : Str
  lastStatus : Str
  sdkSessionId : Option Str
  lastHeartbeat : ℚ
  started : ℚ
  turnCount : ℕ
  deriving DecidableEq

def Turn.key (t : Turn) : Key := ⟨t.project, t.sessionKey, t.agentId⟩
def SessionMeta.key (m : SessionMeta) : Key := ⟨m.project, m.sessionKey, m.agentId⟩

/-- `hub.db`; `lastId` is the sequence behind AUTOINCREMENT. -/
structure Db where
  turns : List Turn
  sessionMeta : List SessionMeta
  lastId : ℕ

def Db.empty : Db := ⟨[], [], 0⟩

/-- The keywords of `write_turn`. -/
structure Completed where
  agentId : Str
  project : Str
  sessionKey : Str
  question : Str
  answer : Str
  oracle : Str
  status : Str
  sdkSessionId : Option Str
  durationMs : Option ℤ

/-- `redact_text`, and `int(cap * 0.9)`, a product of floats. -/
structure Env where
  redactText : Str → Str × ℕ
  ninetyPercent : ℤ → ℤ

variable (env : Env)

/-- INSERT INTO turns. -/
def insertTurn (now : ℚ) (c : Completed) (db : Db) : Db :=
  let turn : Turn := ⟨db.lastId + 1, now, c.agentId, c.project, c.sessionKey,
    (env.redactText c.question).1, (env.redactText c.answer).1, c.oracle, c.status,
    c.sdkSessionId, c.durationMs⟩
  ⟨db.turns ++ [turn], db.sessionMeta, db.lastId + 1⟩

/-- The row VALUES of the upsert. -/
def firstMeta (now : ℚ) (c : Completed) : SessionMeta :=
  ⟨c.sessionKey, c.agentId, c.project, (env.redactText c.question).1, (env.redactText c.answer).1,
    c.oracle, c.status, c.sdkSessionId, now, now, 1⟩

/-- ON CONFLICT(project, session_key, agent_id) DO UPDATE SET. -/
def bumpMeta (excluded : SessionMeta) (m : SessionMeta) : SessionMeta :=
  ⟨m.sessionKey, m.agentId, excluded.project, excluded.lastQuestion, excluded.lastAnswer,
    excluded.lastOracle, excluded.lastStatus, excluded.sdkSessionId, excluded.lastHeartbeat,
    m.started, m.turnCount + 1⟩

/-- INSERT INTO session_meta … ON CONFLICT. -/
def upsertMeta (now : ℚ) (c : Completed) (db : Db) : Db :=
  let excluded := firstMeta env now c
  let conflict (m : SessionMeta) : Bool := m.key = excluded.key
  ⟨db.turns,
    if db.sessionMeta.any conflict then
      db.sessionMeta.map fun m => if conflict m then bumpMeta excluded m else m
    else db.sessionMeta ++ [excluded], db.lastId⟩

/-- `write_turn`, up to its commit. -/
def writeTurn (now : ℚ) (c : Completed) : Script Db :=
  .ofList [insertTurn env now c, upsertMeta env now c]

/-- DELETE FROM turns WHERE. -/
def deleteTurns (junk : Turn → Bool) (db : Db) : Db :=
  ⟨db.turns.filter fun t => !junk t, db.sessionMeta, db.lastId⟩

/-- DELETE FROM session_meta WHERE NOT EXISTS a turn of the full key. -/
def deleteOrphans (db : Db) : Db :=
  ⟨db.turns, db.sessionMeta.filter fun m => db.turns.any fun t => t.key = m.key, db.lastId⟩

/-- SELECT COUNT(*) FROM turns of a key. -/
def turnsOf (db : Db) (k : Key) : ℕ := db.turns.countP fun t => t.key = k

/-- ORDER BY ts DESC LIMIT 1. -/
def latest (db : Db) (k : Key) : Option Turn :=
  ((db.turns.filter fun t => t.key = k).insertionSort fun s t => t.ts ≤ s.ts).head?

/-- The UPDATE of one row in `prune_junk`. -/
def SessionMeta.refresh (m : SessionMeta) (count : ℕ) (t : Turn) : SessionMeta :=
  ⟨m.sessionKey, m.agentId, m.project, t.question, t.answer, t.oracle, t.status, t.sdkSessionId,
    t.ts, m.started, count⟩

/-- The loop over the rows of `session_meta`: count, latest turn, update. -/
def refreshMeta (k : Key) (db : Db) : Db :=
  match latest db k with
  | none => db
  | some t =>
    ⟨db.turns, db.sessionMeta.map fun m => if m.key = k then m.refresh (turnsOf db k) t else m,
      db.lastId⟩

def isJunk (agentId : Str) (maxDurationMs : ℤ) (t : Turn) : Bool :=
  t.agentId = agentId ∧ ∀ d ∈ t.durationMs, d ≤ max 0 maxDurationMs

/-- `prune_junk`, up to its commit. -/
def pruneJunk (agentId : Str) (maxDurationMs : ℤ) : Script Db :=
  .statement (deleteTurns (isJunk agentId maxDurationMs)) fun _ =>
    .statement deleteOrphans fun db => .ofList (db.sessionMeta.map fun m => refreshMeta m.key)

/-- SELECT id FROM turns ORDER BY ts ASC LIMIT; a negative limit is none. -/
def oldest (evict : ℤ) (turns : List Turn) : List ℕ :=
  let ids := (turns.insertionSort fun s t => s.ts ≤ t.ts).map Turn.id
  if evict < 0 then ids else ids.take evict.toNat

/-- DELETE FROM turns WHERE id IN. -/
def evictTurns (evict : ℤ) (db : Db) : Db :=
  deleteTurns (fun t => t.id ∈ oldest evict db.turns) db

/-- UPDATE session_meta SET turn_count, on every row. -/
def recount (db : Db) : Db :=
  ⟨db.turns, db.sessionMeta.map fun m => { m with turnCount := turnsOf db m.key }, db.lastId⟩

/-- `_sweep` with the cap and the count it read: the count was taken before the transaction
began, and other processes may have written since. -/
def sweep (cap : ℤ) (count : ℕ) : Script Db :=
  if cap ≤ 0 then .commit
  else if cap < count then
    .ofList [evictTurns (count - env.ninetyPercent cap), deleteOrphans, recount]
  else .commit

/-- What a process may do to the hub: `write_turn` goes on with a sweep now and then. -/
inductive Operation where
  | writeTurn (now : ℚ) (c : Completed)
  | sweep (cap : ℤ) (count : ℕ)
  | pruneJunk (agentId : Str) (maxDurationMs : ℤ)

def script : Operation → Script Db
  | .writeTurn now c => writeTurn env now c
  | .sweep cap count => sweep env cap count
  | .pruneJunk agentId maxDurationMs => pruneJunk agentId maxDurationMs

/-- The two tables agree: the keys with a row of `session_meta` are those with a turn, there
is one row for each, and it counts the turns. -/
structure Consistent (db : Db) : Prop where
  unique : (db.sessionMeta.map SessionMeta.key).Nodup
  rows : ∀ k, (∃ m ∈ db.sessionMeta, m.key = k) ↔ ∃ t ∈ db.turns, t.key = k
  counts : ∀ m ∈ db.sessionMeta, m.turnCount = turnsOf db m.key

abbrev Tallied (turns : List Turn) (sessionMeta : List SessionMeta) : Prop :=
  Tallies Turn.key SessionMeta.key SessionMeta.turnCount turns sessionMeta

theorem turnsOf_eq (db : Db) (k : Key) : turnsOf db k = (db.turns.map Turn.key).count k := by
  rw [turnsOf, List.count, List.countP_map]
  refine List.countP_congr fun t _ => ?_
  simp

theorem consistent_iff (db : Db) : Consistent db ↔ Tallied db.turns db.sessionMeta := by
  constructor
  · rintro ⟨hunique, hrows, hcounts⟩
    exact ⟨hunique, fun k => by simpa using hrows k,
      fun m hm => (hcounts m hm).trans (turnsOf_eq db _)⟩
  · rintro ⟨hunique, hcovers, hcounts⟩
    exact ⟨hunique, fun k => by simpa using hcovers k,
      fun m hm => (hcounts m hm).trans (turnsOf_eq db _).symm⟩

theorem upsertMeta_eq (now : ℚ) (c : Completed) (db : Db) :
    (upsertMeta env now c db).sessionMeta =
      upsert SessionMeta.key (firstMeta env now c) (bumpMeta (firstMeta env now c))
        db.sessionMeta := by
  simp [upsertMeta, upsert]

/-- An update meets only the row of the very key, so it may set the project again. -/
theorem bumpMeta_key {excluded m : SessionMeta} (h : m.key = excluded.key) :
    (bumpMeta excluded m).key = m.key := by
  have hproject : m.project = excluded.project := congrArg Key.project h
  simp [bumpMeta, SessionMeta.key, hproject]

theorem consistent_writeTurn (now : ℚ) (c : Completed) (db : Db) (h : Consistent db) :
    Consistent ((writeTurn env now c).run db) := by
  rw [writeTurn, Script.run_ofList, List.foldl_cons, List.foldl_cons, List.foldl_nil,
    consistent_iff, upsertMeta_eq]
  exact ((consistent_iff db).mp h).upsert _ rfl rfl (fun _ => bumpMeta_key) fun _ => rfl

theorem deleteOrphans_eq (db : Db) :
    (deleteOrphans db).sessionMeta = withRows Turn.key SessionMeta.key db.turns db.sessionMeta := by
  refine List.filter_congr fun m _ => ?_
  simp [List.any_eq]

/-- Whatever turns a sweep or a pruning deletes, the tables agree again when the rows without
turns are gone and the others have been counted. -/
theorem consistent_recounted {db : Db} (h : Consistent db) (junk : Turn → Bool) {after : Db}
    (hturns : after.turns = (deleteTurns junk db).turns)
    (hkeys : after.sessionMeta.map SessionMeta.key =
      (deleteOrphans (deleteTurns junk db)).sessionMeta.map SessionMeta.key)
    (hcounts : ∀ m ∈ after.sessionMeta, m.turnCount = turnsOf (deleteTurns junk db) m.key) :
    Consistent after := by
  rw [deleteOrphans_eq] at hkeys
  rw [consistent_iff, hturns]
  exact ((consistent_iff db).mp h).recounted List.filter_sublist.subset hkeys fun m hm =>
    (hcounts m hm).trans (turnsOf_eq _ _)

theorem consistent_sweep (cap : ℤ) (count : ℕ) (db : Db) (h : Consistent db) :
    Consistent ((sweep env cap count).run db) := by
  unfold sweep
  split_ifs with hoff hover
  · exact h
  · rw [Script.run_ofList, List.foldl_cons, List.foldl_cons, List.foldl_cons, List.foldl_nil]
    refine consistent_recounted h (fun t => t.id ∈ oldest (count - env.ninetyPercent cap) db.turns)
      rfl ?_ fun m hm => ?_
    · rw [recount, List.map_map]
      rfl
    · obtain ⟨m₀, _, rfl⟩ := List.mem_map.mp hm
      rfl
  · exact h

@[simp] theorem refreshMeta_turns (k : Key) (db : Db) : (refreshMeta k db).turns = db.turns := by
  unfold refreshMeta
  split <;> rfl

theorem refreshMeta_keys (k : Key) (db : Db) :
    (refreshMeta k db).sessionMeta.map SessionMeta.key = db.sessionMeta.map SessionMeta.key := by
  unfold refreshMeta
  split
  · rfl
  · rw [List.map_map]
    refine List.map_congr_left fun m _ => ?_
    by_cases hm : m.key = k
    · simp only [Function.comp_apply, hm, if_true]
      exact hm
    · simp only [Function.comp_apply, hm, if_false]

/-- A key with a turn has a latest one. -/
theorem latest_isSome {db : Db} {k : Key} (h : ∃ t ∈ db.turns, t.key = k) :
    ∃ t, latest db k = some t := by
  obtain ⟨t, ht, hk⟩ := h
  have hmem : t ∈ (db.turns.filter fun t => t.key = k).insertionSort fun s t => t.ts ≤ s.ts :=
    (List.mem_insertionSort _).mpr (List.mem_filter.mpr ⟨ht, by simpa using hk⟩)
  exact ⟨_, List.head?_eq_some_head (List.ne_nil_of_mem hmem)⟩

/-- A row that is refreshed has the right count, and the others are as they were. -/
theorem mem_refreshMeta {db : Db} {k : Key} (hk : ∃ t ∈ db.turns, t.key = k) {m : SessionMeta}
    (hm : m ∈ (refreshMeta k db).sessionMeta) :
    if m.key = k then m.turnCount = turnsOf db k else m ∈ db.sessionMeta := by
  obtain ⟨t, ht⟩ := latest_isSome hk
  simp only [refreshMeta, ht] at hm
  obtain ⟨m₀, hm₀, rfl⟩ := List.mem_map.mp hm
  by_cases h : m₀.key = k
  · have hkey : (m₀.refresh (turnsOf db k) t).key = k := h
    simp only [h, if_true, hkey]
    rfl
  · simpa only [h, if_false] using hm₀

/-- The loop of `prune_junk` counts every row whose turn has come. -/
theorem refreshed (ks : List Key) (db : Db) (hks : ∀ k ∈ ks, ∃ t ∈ db.turns, t.key = k) :
    let after := (ks.map refreshMeta).foldl (fun db f => f db) db
    after.turns = db.turns ∧
      after.sessionMeta.map SessionMeta.key = db.sessionMeta.map SessionMeta.key ∧
      ∀ m ∈ after.sessionMeta, m.key ∈ ks → m.turnCount = turnsOf db m.key := by
  induction ks using List.reverseRecOn with
  | nil => exact ⟨rfl, rfl, by simp⟩
  | append_singleton ks k ih =>
    obtain ⟨hturns, hkeys, hcounts⟩ := ih fun j hj => hks j (List.mem_append_left _ hj)
    have hk : ∃ t ∈ db.turns, t.key = k := hks k (by simp)
    simp only [List.map_append, List.foldl_append, List.map_cons, List.map_nil, List.foldl_cons,
      List.foldl_nil]
    refine ⟨(refreshMeta_turns k _).trans hturns, (refreshMeta_keys k _).trans hkeys,
      fun m hm hmem => ?_⟩
    have hrow := mem_refreshMeta (hturns ▸ hk) hm
    by_cases hmk : m.key = k
    · rw [if_pos hmk] at hrow
      rw [hrow, turnsOf, turnsOf, hturns, hmk]
    · rw [if_neg hmk] at hrow
      refine hcounts m hrow ?_
      simpa [hmk] using hmem

theorem consistent_pruneJunk (agentId : Str) (maxDurationMs : ℤ) (db : Db) (h : Consistent db) :
    Consistent ((pruneJunk agentId maxDurationMs).run db) := by
  let left := deleteTurns (isJunk agentId maxDurationMs) db
  let kept := deleteOrphans left
  -- The rows read back are those of `kept`, and each of them still has a turn.
  have hks : ∀ k ∈ kept.sessionMeta.map SessionMeta.key, ∃ t ∈ kept.turns, t.key = k := by
    intro k hk
    obtain ⟨m, hm, rfl⟩ := List.mem_map.mp hk
    change ∃ t ∈ left.turns, t.key = m.key
    simpa using (List.mem_filter.mp hm).2
  obtain ⟨hturns, hkeys, hcounts⟩ := refreshed (kept.sessionMeta.map SessionMeta.key) kept hks
  rw [pruneJunk, Script.run_statement, Script.run_statement, Script.run_ofList]
  rw [List.map_map] at hturns hkeys hcounts
  refine consistent_recounted h (isJunk agentId maxDurationMs) hturns hkeys fun m hm => ?_
  exact hcounts m hm (hkeys ▸ List.mem_map_of_mem hm)

/-- From an empty database, whatever any processes do in any order and wherever any of it
fails, `session_meta` has one row for each key of a turn and no other, and it counts the
turns of the key. -/
theorem hub_consistent {ι : Type*} [DecidableEq ι] (actions : List (Action ι Operation)) :
    Consistent (after (script env) Db.empty actions) := by
  refine after_invariant (script env) (fun op db h => ?_) ?_ actions
  · cases op with
    | writeTurn now c => exact consistent_writeTurn env now c db h
    | sweep cap count => exact consistent_sweep env cap count db h
    | pruneJunk agentId maxDurationMs => exact consistent_pruneJunk agentId maxDurationMs db h
  · exact (consistent_iff _).mpr Tallies.nil

end AskFable.Hub

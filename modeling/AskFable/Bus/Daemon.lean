import AskFable.Bus.Crypto
import AskFable.General.Keyed
import Mathlib.Data.List.Sort

/-!
# The owner daemon

The `bus_context` table and the handlers of `/v1/put`, `/v1/get` and `/v1/delete`, once a
request is authenticated and its body is a JSON object. A handler replies, or dies of an
exception nothing on its way catches. The database file itself is taken to work.
-/
namespace AskFable.Bus
open AskFable.Text AskFable.Python

def FLOOR_SLACK_NS : ℤ := 60 * 1000000000

def SWEEP_EVERY : ℕ := 100

structure BusRow where
  key : Str
  writer : Str
  writerTs : ℤ
  /-- `time.time()` at the write; only its order is read. -/
  receivedTs : ℤ
  envelope : Str
  plaintextBytes : ℤ
  deriving DecidableEq

/-- `key` is the primary key. -/
structure BusTable where
  rows : List BusRow
  unique : (rows.map BusRow.key).Nodup

namespace BusTable

def empty : BusTable := ⟨[], List.nodup_nil⟩

def row? (t : BusTable) (key : Str) : Option BusRow := t.rows.find? fun r => r.key == key

theorem row?_none {t : BusTable} {key : Str} : t.row? key = none ↔ key ∉ t.rows.map BusRow.key := by
  simp only [row?, List.find?_eq_none, List.mem_map, beq_iff_eq, not_exists, not_and]

theorem row?_key {t : BusTable} {key : Str} {r : BusRow} (h : t.row? key = some r) :
    r.key = key := by
  have hkey := List.find?_some h
  simpa using hkey

/-- `INSERT` of a key that is not there. -/
def insert (t : BusTable) (r : BusRow) (h : t.row? r.key = none) : BusTable where
  rows := t.rows ++ [r]
  unique := by
    rw [List.map_append, List.nodup_append]
    refine ⟨t.unique, by simp, fun a ha b hb hab => ?_⟩
    have hb : b = r.key := by simpa using hb
    exact row?_none.mp h (hb ▸ hab ▸ ha)

/-- `DO UPDATE SET` of every column but the key. -/
def overwrite (t : BusTable) (r : BusRow) : BusTable where
  rows := t.rows.map fun old => if old.key = r.key then { r with key := old.key } else old
  unique := by
    have hkeys := Keyed.map_key_modify BusRow.key r.key (l := t.rows)
      (f := fun old => { r with key := old.key }) fun _ => rfl
    rw [hkeys]
    exact t.unique

/-- `DELETE` of the rows whose key is picked. -/
def remove (t : BusTable) (p : Str → Bool) : BusTable where
  rows := t.rows.filter fun r => !p r.key
  unique := t.unique.sublist (List.filter_sublist.map _)

theorem row?_insert (t : BusTable) {r : BusRow} (h : t.row? r.key = none) (key : Str) :
    (t.insert r h).row? key = if r.key = key then some r else t.row? key := by
  simp only [row?, insert, List.find?_append]
  by_cases hk : r.key = key
  · subst hk
    have hnone : (t.rows.find? fun a => a.key == r.key) = none := h
    simp [hnone]
  · simp [hk]

theorem row?_overwrite (t : BusTable) {r old : BusRow} (h : t.row? r.key = some old) (key : Str) :
    (t.overwrite r).row? key = if r.key = key then some r else t.row? key := by
  have hfind : (t.overwrite r).row? key =
      (t.row? key).map fun a => if a.key = r.key then { r with key := a.key } else a := by
    simp only [row?, overwrite, List.find?_map]
    congr 2
    funext a
    by_cases ha : a.key = r.key <;> simp [ha]
  rw [hfind]
  by_cases hk : r.key = key
  · subst hk
    have hold := row?_key h
    simp [h, hold]
  · rw [if_neg hk]
    cases ha : t.row? key with
    | none => rfl
    | some a =>
      have hak : a.key ≠ r.key := fun heq => hk (heq ▸ row?_key ha)
      simp [hak]

theorem row?_remove (t : BusTable) (p : Str → Bool) (key : Str) :
    (t.remove p).row? key = if p key then none else t.row? key := by
  simp only [row?, remove, List.find?_filter]
  by_cases hp : p key = true
  · rw [if_pos hp, List.find?_eq_none]
    intro a _ ha
    simp only [Bool.not_eq_true', beq_iff_eq, decide_eq_true_eq] at ha
    obtain ⟨hnot, rfl⟩ := ha
    rw [hp] at hnot
    exact absurd hnot (by simp)
  · rw [if_neg hp]
    congr 1
    funext a
    by_cases hk : a.key = key <;> simp [hk, hp]

end BusTable

/-! ### Statements -/

/-- The guarded upsert and whether it changed a row: the `WHERE` is only evaluated when
the key is there. -/
def upsert (t : BusTable) (r : BusRow) (ifMatch : Option ℤ) : BusTable × Bool :=
  if h : t.row? r.key = none then (t.insert r h, true)
  else if (t.row? r.key).any (fun old => decide (old.writerTs - FLOOR_SLACK_NS ≤ r.writerTs) &&
      ifMatch.all fun m => old.writerTs == m) then (t.overwrite r, true)
  else (t, false)

/-- `SELECT key … WHERE writer=? ORDER BY writer_ts ASC LIMIT n`. -/
def oldestOf (t : BusTable) (writer : Str) (n : ℕ) : List Str :=
  (((t.rows.filter fun r => r.writer == writer).insertionSort
    fun a b => a.writerTs ≤ b.writerTs).take n).map BusRow.key

/-- One writer's turn in `_sweep`. -/
def sweepWriter (cap : ℕ) (t : BusTable) (writer : Str) : BusTable :=
  let count := (t.rows.filter fun r => r.writer == writer).length
  if cap < count then t.remove fun key => (oldestOf t writer (count - cap * 9 / 10)).contains key
  else t

/-- `_sweep`: each writer keeps its own newest rows. -/
def sweepBus (t : BusTable) (cap : ℕ) : BusTable :=
  if cap = 0 then t else (t.rows.map BusRow.writer).dedup.foldl (sweepWriter cap) t

/-- What `sqlite3` accepts as a text parameter. -/
def bindText (s : Str) : Except Fault Unit :=
  if s.any isSurrogate then .error .UnicodeEncodeError else .ok ()

/-- What `sqlite3` accepts as an integer parameter. -/
def bindInt (n : ℤ) : Except Fault Unit :=
  if -2 ^ 63 ≤ n ∧ n < 2 ^ 63 then .ok () else .error .OverflowError

/-! ### Handlers -/

/-- The daemon's memory and its database. -/
structure Daemon where
  table : BusTable
  puts : ℕ

inductive Reply
  | ok
  | reject (status : ℕ) (error : Str)
  deriving DecidableEq

/-- A handler that ends before it reaches the database. -/
inductive Stop
  | refused (status : ℕ) (error : Str)
  | died (f : Fault)
  deriving DecidableEq

def refuse {α : Type} (status : ℕ) (error : Str) : Except Stop α :=
  .error (.refused status error)

def bound (r : Except Fault Unit) : Except Stop Unit :=
  match r with
  | .ok _ => .ok ()
  | .error f => .error (.died f)

section
variable [Host]

/-- `envelope_meta` under the handler that answers a `CryptoError` with 400. -/
def headerOf (envelope : Str) : Except Stop (Str × ℕ) :=
  match envelopeMeta envelope with
  | .ok (_, _, writer, ts) => .ok (writer, ts)
  | .error (.crypto e) => refuse 400 (txt "malformed envelope: " ++ e.detail)
  | .error (.fault f) => .error (.died f)

/-- The `ts_ns` the request states; -1 when it is no integer. -/
def sentTs (payload : Dict) : Except Stop ℤ :=
  match (Dict.getOr payload (txt "ts_ns") (.int 0)).intOf with
  | .value n => .ok n
  | .mismatch => .ok (-1)
  | .overflow => .error (.died .OverflowError)

def sentBytes (payload : Dict) : Except Stop ℤ :=
  match (Dict.getOr payload (txt "plaintext_bytes") (.int 0)).intOf with
  | .value n => .ok (max 0 n)
  | .mismatch => .ok 0
  | .overflow => .error (.died .OverflowError)

/-- The `If-Match-Writer-Ts` header, read. -/
def matchTs (ifMatch : Option Str) : Except Stop (Option ℤ) :=
  match ifMatch with
  | none => .ok none
  | some raw =>
    match Host.intText (strip raw) with
    | some n => .ok (some n)
    | none => refuse 409 (txt "If-Match-Writer-Ts mismatch (unparseable)")

/-- `_put` up to its database access: the row to store and the timestamp to match.
`now` and `received` are the two readings of the clock. -/
def putRequest (payload : Dict) (ifMatch : Option Str) (now received : ℤ) :
    Except Stop (BusRow × Option ℤ) := do
  let key := strip (Dict.text payload (txt "key"))
  let envelope := Dict.text payload (txt "envelope")
  if key = [] ∨ envelope = [] then refuse 400 (txt "key and envelope are required")
  else
    let (writer, ts) ← headerOf envelope
    if Dict.text payload (txt "writer") ≠ writer then
      refuse 400 (txt "writer does not match the sealed envelope header")
    else
      let sent ← sentTs payload
      if sent ≠ ts then refuse 400 (txt "ts_ns does not match the sealed envelope header")
      else if now + FLOOR_SLACK_NS < ts then
        refuse 400 (txt "envelope ts is in the future (clock skew or forgery)")
      else
        let bytes ← sentBytes payload
        let expected ← matchTs ifMatch
        bound (bindText key)
        bound (bindText writer)
        bound (bindInt ts)
        bound (bindText envelope)
        bound (bindInt bytes)
        bound (expected.elim (.ok ()) bindInt)
        return (⟨key, writer, ts, received, envelope, bytes⟩, expected)

/-- The reply to a refused upsert. -/
def conflict (t : BusTable) (key : Str) (expected : Option ℤ) : Reply :=
  let stored := (t.row? key).elim 0 BusRow.writerTs
  if expected.all (· == stored) then .reject 409 (txt "stale writer_ts (possible replay)")
  else .reject 409 (txt "If-Match-Writer-Ts mismatch (current " ++ intStr stored ++ txt ")")

/-- An accepted put: it is counted, and every hundredth sweeps. -/
def Daemon.accepted (st : Daemon) (maxRows : ℕ) (t : BusTable) : Daemon where
  table := if (st.puts + 1) % SWEEP_EVERY = 0 then sweepBus t maxRows else t
  puts := st.puts + 1

/-- `_put`. -/
def Daemon.put (st : Daemon) (maxRows : ℕ) (payload : Dict) (ifMatch : Option Str)
    (now received : ℤ) : Daemon × Except Fault Reply :=
  match putRequest payload ifMatch now received with
  | .error (.refused status error) => (st, .ok (.reject status error))
  | .error (.died f) => (st, .error f)
  | .ok (row, expected) =>
    let (t, changed) := upsert st.table row expected
    if changed then (st.accepted maxRows t, .ok .ok)
    else (st, .ok (conflict st.table row.key expected))

/-- `_get`: the row served. -/
def Daemon.get (st : Daemon) (payload : Dict) : Except Fault (Option BusRow) :=
  let key := strip (Dict.text payload (txt "key"))
  match bindText key with
  | .ok _ => .ok (st.table.row? key)
  | .error f => .error f

/-- `_delete`: whether a row was there. -/
def Daemon.delete (st : Daemon) (payload : Dict) : Daemon × Except Fault Bool :=
  let key := strip (Dict.text payload (txt "key"))
  match bindText key with
  | .ok _ => ({ st with table := st.table.remove (· == key) }, .ok (st.table.row? key).isSome)
  | .error f => (st, .error f)

end

/-! ### What a statement does to a key -/

/-- An upsert changes nothing, or leaves the key with the new row; it is let through when
the key is absent, or by the floor and the match. -/
theorem upsert_cases (t : BusTable) (r : BusRow) (m : Option ℤ) :
    (upsert t r m = (t, false) ∧ ∃ old, t.row? r.key = some old ∧
      ¬(old.writerTs - FLOOR_SLACK_NS ≤ r.writerTs ∧ ∀ e ∈ m, old.writerTs = e)) ∨
    ((upsert t r m).2 = true ∧
      (∀ key, (upsert t r m).1.row? key = if r.key = key then some r else t.row? key) ∧
      ∀ old, t.row? r.key = some old →
        old.writerTs - FLOOR_SLACK_NS ≤ r.writerTs ∧ ∀ e ∈ m, old.writerTs = e) := by
  unfold upsert
  by_cases h : t.row? r.key = none
  · rw [dif_pos h]
    refine .inr ⟨rfl, t.row?_insert h, fun old hold => ?_⟩
    rw [h] at hold
    exact absurd hold (by simp)
  · obtain ⟨old, hold⟩ := Option.ne_none_iff_exists'.mp h
    have hguard : ((t.row? r.key).any fun old =>
        decide (old.writerTs - FLOOR_SLACK_NS ≤ r.writerTs) &&
          m.all fun m => old.writerTs == m) = true ↔
        old.writerTs - FLOOR_SLACK_NS ≤ r.writerTs ∧ ∀ e ∈ m, old.writerTs = e := by
      simp only [hold, Option.any_some, Bool.and_eq_true, decide_eq_true_eq]
      cases m <;> simp
    rw [dif_neg h]
    split_ifs with hlet
    · refine .inr ⟨rfl, t.row?_overwrite hold, fun old' hold' => ?_⟩
      obtain rfl := Option.some.inj (hold.symm.trans hold')
      exact hguard.mp hlet
    · exact .inl ⟨rfl, old, hold, fun hc => hlet (hguard.mpr hc)⟩

end AskFable.Bus

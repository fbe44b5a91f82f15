import AskFable.Store.LostUpdate
import AskFable.Bus.Reader
import AskFable.General.Fallible

/-!
# Loading and saving a session's ledger

What `ask_falsify` makes of the store's answer to a read, and what its saves may then
overwrite, on either backend. A read that failed is told from an absent key by the error
the store noted; a text that was read and is no ledger is told from neither.
-/
namespace AskFable.Store.Session
open AskFable.Text AskFable.Python AskFable.Bus

/-- `_ledger_key`. -/
def ledgerKey (session : Str) : Str := txt "falsify/" ++ session ++ txt "/ledger"

/-- How a backend's `row_versioned` ended. -/
inductive RowAnswer
  | row (stored : Str) (version : ℕ)
  | absent
  /-- The backend noted an error, or raised a `BusError`. -/
  | failed
  deriving DecidableEq

/-- What a client brings to a read. -/
structure Client where
  lib : Library
  guard : Guard
  marks : Option Marks
  keyring : Except CryptoError Keyring

/-- What `get_versioned` returned, and whether `last_error` is set after it. -/
structure Reading where
  value : Option (Str × ℕ)
  error : Bool

inductive Loaded
  /-- The store is degraded. -/
  | degraded
  /-- `new_ledger(session)` with this version. -/
  | fresh (version : ℕ)
  | stored (ledger : Dict) (version : ℕ)

section
variable [Host]

/-- `get_versioned`. -/
def getVersioned (c : Client) (bus : Bool) (key : Str) : RowAnswer → Except Raised Reading
  | .failed => .ok ⟨none, true⟩
  | .absent => .ok ⟨none, false⟩
  | .row stored version =>
    match (readable c.lib bus c.guard c.marks c.keyring stored (strip key)).2 with
    | .error e => .error e
    | .ok (.error _) => .ok ⟨none, true⟩
    | .ok (.ok (value, _)) => .ok ⟨some (value, version), false⟩

/-- The ledger a text holds, if it holds one. Only the reader's `ValueError` is caught. -/
def ledgerOf (raw : Str) : Except Raised (Option Dict) :=
  match JsonText.loads raw with
  | .ok (.obj items) =>
    .ok (if Dict.truthy items (txt "falsify_version") then some items else none)
  | .ok _ => .ok none
  | .error .value | .error .digits => .ok none
  | .error .recursion => .error (.fault .RecursionError)

/-- `_load_ledger`. -/
def loadLedger (c : Client) (bus : Bool) (key : Str) (answer : RowAnswer) :
    Except Raised Loaded :=
  (getVersioned c bus key answer).bind fun reading =>
    match reading.value with
    | none => .ok (if reading.error then .degraded else .fresh 0)
    | some (raw, version) =>
      (ledgerOf raw).map fun ledger =>
        match ledger with
        | some items => .stored items version
        | none => .fresh version

theorem loadLedger_row (c : Client) (bus : Bool) (key stored : Str) (version : ℕ) :
    loadLedger c bus key (.row stored version) =
      match (readable c.lib bus c.guard c.marks c.keyring stored (strip key)).2 with
      | .error e => .error e
      | .ok (.error _) => .ok .degraded
      | .ok (.ok (value, _)) => (ledgerOf value).map fun ledger =>
          match ledger with
          | some items => .stored items version
          | none => .fresh version := by
  unfold loadLedger getVersioned
  cases hr : (readable c.lib bus c.guard c.marks c.keyring stored (strip key)).2 with
  | error e => simp [hr, Except.bind]
  | ok result => cases result <;> simp [hr, Except.bind]

/-! ### When a read becomes a fresh ledger -/

/-- The stored value can be read, and what was read is no ledger. -/
def Unusable (c : Client) (bus : Bool) (key stored : Str) : Prop :=
  ∃ value description,
    (readable c.lib bus c.guard c.marks c.keyring stored (strip key)).2 =
      .ok (.ok (value, description)) ∧ ledgerOf value = .ok none

theorem loadLedger_fresh {c : Client} {bus : Bool} {key : Str} {answer : RowAnswer} {v : ℕ} :
    loadLedger c bus key answer = .ok (.fresh v) ↔
      (answer = .absent ∧ v = 0) ∨ ∃ stored, answer = .row stored v ∧ Unusable c bus key stored := by
  cases answer with
  | failed => simp [loadLedger, getVersioned, Except.bind]
  | absent => simp [loadLedger, getVersioned, Except.bind, eq_comm]
  | row stored version =>
    rw [loadLedger_row]
    unfold Unusable
    cases hr : (readable c.lib bus c.guard c.marks c.keyring stored (strip key)).2 with
    | error e => simp [hr]
    | ok result =>
      cases result with
      | error e => simp [hr]
      | ok opened =>
        obtain ⟨value, description⟩ := opened
        cases hl : ledgerOf value with
        | error e => simp [Except.map, hr, hl]
        | ok ledger => cases ledger <;> simp [Except.map, hr, hl]

/-- A plain text of the local store that holds no ledger can be read and is none. -/
theorem unusable_plain {c : Client} {key stored : Str} (hplain : isSealed stored = false)
    (hnone : ledgerOf stored = .ok none) : Unusable c false key stored :=
  ⟨stored, none, by simp [readable, hplain], hnone⟩

theorem ledgerOf_unparsed {raw : Str}
    (h : (match JsonText.loads raw with | .error .value => true | _ => false) = true) :
    ledgerOf raw = .ok none := by
  unfold ledgerOf
  cases hl : JsonText.loads raw with
  | ok v => simp [hl] at h
  | error e =>
    cases e with
    | value => rfl
    | digits | recursion => simp [hl] at h

end

/-! ### Runs over one key -/

/-- Where the value of the key is kept: the table of the local backend, or the newest
envelope of the bus. -/
inductive Shelf
  | table (t : Table)
  | bus (held : Option Str)

namespace Shelf

def isBus : Shelf → Bool
  | table _ => false
  | bus _ => true

/-- The stored value of a key. -/
def value (key : Str) : Shelf → Option Str
  | table t => (t.row? (strip key)).map Row.value
  | bus held => held

/-- `row_versioned` of a backend that can be reached; the bus has no versions. -/
def answer (key : Str) : Shelf → RowAnswer
  | table t =>
    match rowVersioned t key with
    | some (stored, version) => .row stored version
    | none => .absent
  | bus held =>
    match held with
    | some stored => .row stored 0
    | none => .absent

/-- A save that reaches the store: conditional on the version in the table, newest wins on
the bus. -/
def save (key content : Str) (version : ℕ) (now : ℤ) : Shelf → Shelf × Bool
  | table t =>
    let (t, ok) := saveLedger t key content version now
    (table t, ok)
  | bus _ => (bus (some content), true)

end Shelf

/-- A started run: the version it saves with, and the stored value it read as a ledger. -/
structure Run where
  version : ℕ
  read : Option Str

structure World where
  shelf : Shelf
  runs : ℕ → Option Run
  /-- What runs have saved, newest first. -/
  saved : List Str

/-- A load or a save of a run; one that does not reach the store has `up = false`. -/
inductive Act
  | load (r : ℕ) (c : Client) (up : Bool)
  | save (r : ℕ) (content : Str) (now : ℤ) (up : Bool)

def World.start (shelf : Shelf) : World := ⟨shelf, fun _ => none, []⟩

section
variable [Host]

/-- The run a load starts. A degraded store or an exception starts none. -/
def World.loaded (key : Str) (w : World) (c : Client) (up : Bool) : Option Run :=
  match loadLedger c w.shelf.isBus key (if up then w.shelf.answer key else .failed) with
  | .ok (.fresh version) => some ⟨version, none⟩
  | .ok (.stored _ version) => some ⟨version, w.shelf.value key⟩
  | .ok .degraded | .error _ => none

def World.step (key : Str) (w : World) : Act → World
  | .load r c up => { w with runs := Function.update w.runs r (w.loaded key c up) }
  | .save r content now up =>
    match w.runs r with
    | none => w
    | some run =>
      if up = true ∧ (w.shelf.save key content run.version now).2 = true then
        { shelf := (w.shelf.save key content run.version now).1
          runs := Function.update w.runs r (some { run with version := run.version + 1 })
          saved := content :: w.saved }
      else w

/-- A save lands on a value that is not empty and that this run did not read as a ledger,
nor any run saved. -/
def Blind (key : Str) (w : World) : Act → Prop
  | .load _ _ _ => False
  | .save r content now up => ∃ run old, w.runs r = some run ∧ up = true ∧
      (w.shelf.save key content run.version now).2 = true ∧ w.shelf.value key = some old ∧
      old ≠ [] ∧ old ∉ w.saved ∧ run.read ≠ some old

def NeverBlind (key : Str) (w : World) : List Act → Prop
  | [] => True
  | a :: acts => ¬Blind key w a ∧ NeverBlind key (w.step key a) acts

omit [Host] in
/-- A save that lands leaves its own content. -/
theorem Shelf.value_save {key content : Str} {version : ℕ} {now : ℤ} {shelf : Shelf}
    (h : (shelf.save key content version now).2 = true) :
    (shelf.save key content version now).1.value key = some content := by
  cases shelf with
  | bus held => rfl
  | table t =>
    obtain ⟨hkey, hver⟩ := (saveLedger_lands t key content version now).mp h
    simp only [Shelf.save, Shelf.value, saveLedger, put, dif_neg hkey]
    by_cases hrow : t.row? (strip key) = none
    · have hzero : version = 0 := by rw [hver, Table.version_eq_zero, hrow]
      simp [hzero, hrow, Table.row?_insert]
    · obtain ⟨r, hr⟩ := Option.ne_none_iff_exists'.mp hrow
      have hv : version = r.version := by rw [hver, Table.version, hr, Option.elim_some]
      have hpos := t.versioned r (Table.row?_some hr).1
      have hle : ¬(version : ℤ) ≤ 0 := by omega
      have hany : ((t.row? (strip key)).any fun r => (r.version : ℤ) == (version : ℤ)) = true := by
        simp [hr, hv]
      rw [if_neg hle, if_pos hany, Table.row?_update, if_pos rfl, hr]
      rfl

omit [Host] in
/-- The answer to a read is the stored value. -/
theorem Shelf.value_answer {key stored : Str} {version : ℕ} {shelf : Shelf}
    (h : shelf.answer key = .row stored version) : shelf.value key = some stored := by
  cases shelf with
  | bus held =>
    cases held with
    | none => simp [Shelf.answer] at h
    | some w =>
      simp only [Shelf.answer, RowAnswer.row.injEq] at h
      rw [Shelf.value, h.1]
  | table t =>
    simp only [Shelf.answer, rowVersioned] at h
    split_ifs at h with hkey
    cases hrow : t.row? (strip key) with
    | none => simp [hrow] at h
    | some r =>
      simp only [hrow, Option.map_some, RowAnswer.row.injEq] at h
      rw [Shelf.value, hrow, Option.map_some, h.1]

omit [Host] in
theorem Shelf.answer_absent {key : Str} {shelf : Shelf} (h : shelf.answer key = .absent) :
    shelf.value key = none := by
  cases shelf with
  | bus held =>
    cases held with
    | none => rfl
    | some w => simp [Shelf.answer] at h
  | table t =>
    simp only [Shelf.answer, rowVersioned] at h
    split_ifs at h with hkey
    · rw [Shelf.value, hkey, t.row?_nil, Option.map_none]
    · cases hrow : t.row? (strip key) with
      | none => rw [Shelf.value, hrow, Option.map_none]
      | some r => simp [hrow] at h

omit [Host] in
/-- A save with the version that was just read lands. -/
theorem Shelf.save_answer {key stored content : Str} {version : ℕ} {now : ℤ} {shelf : Shelf}
    (h : shelf.answer key = .row stored version) :
    (shelf.save key content version now).2 = true := by
  cases shelf with
  | bus held => rfl
  | table t =>
    simp only [Shelf.answer, rowVersioned] at h
    split_ifs at h with hkey
    cases hrow : t.row? (strip key) with
    | none => simp [hrow] at h
    | some r =>
      simp only [hrow, Option.map_some, RowAnswer.row.injEq] at h
      refine (saveLedger_lands t key content version now).mpr ⟨hkey, ?_⟩
      rw [Table.version, hrow, Option.elim_some, h.2]

/-- The value a run that started met, if there was one, is the ledger it read, unless it
was readable and none. -/
theorem World.loaded_read {key : Str} {w : World} {c : Client} {up : Bool} {run : Run}
    (h : w.loaded key c up = some run) {old : Str} (hold : w.shelf.value key = some old)
    (husable : ¬Unusable c w.shelf.isBus key old) : run.read = some old := by
  unfold World.loaded at h
  cases hload : loadLedger c w.shelf.isBus key (if up then w.shelf.answer key else .failed) with
  | error e => simp [hload] at h
  | ok loaded =>
    cases loaded with
    | degraded => simp [hload] at h
    | stored items version =>
      simp only [hload, Option.some.injEq] at h
      rw [← h, hold]
    | fresh version =>
      exfalso
      cases up with
      | false => simp [loadLedger, getVersioned, Except.bind] at hload
      | true =>
        rcases loadLedger_fresh.mp hload with ⟨habsent, -⟩ | ⟨stored, hrow, hun⟩
        · rw [Shelf.answer_absent habsent] at hold
          simp at hold
        · rw [Shelf.value_answer hrow, Option.some.injEq] at hold
          exact husable (hold ▸ hun)

/-- Until something is saved, every run has read the first value as a ledger; from then on
the stored value is one that was saved. -/
structure Seen (key : Str) (first : Shelf) (w : World) : Prop where
  unsaved : w.saved = [] → w.shelf = first ∧ ∀ r run, w.runs r = some run →
    ∀ old, first.value key = some old → old ≠ [] → run.read = some old
  saved : w.saved ≠ [] → ∀ old, w.shelf.value key = some old → old ∈ w.saved

theorem Seen.step {key : Str} {first : Shelf} {w : World} (h : Seen key first w) {a : Act}
    (husable : ∀ r c up, a = .load r c up → ∀ old, first.value key = some old → old ≠ [] →
      ¬Unusable c first.isBus key old) : Seen key first (w.step key a) := by
  cases a with
  | load r c up =>
    refine ⟨fun hnil => ?_, h.saved⟩
    obtain ⟨hshelf, hruns⟩ := h.unsaved hnil
    refine ⟨hshelf, fun q run hrun old hold hne => ?_⟩
    by_cases hq : q = r
    · subst hq
      simp only [World.step, Function.update_self] at hrun
      exact World.loaded_read hrun (hshelf ▸ hold) (hshelf ▸ husable q c up rfl old hold hne)
    · simp only [World.step, Function.update_of_ne hq] at hrun
      exact hruns q run hrun old hold hne
  | save r content now up =>
    cases hrun : w.runs r with
    | none => simpa only [World.step, hrun] using h
    | some run =>
      by_cases hlands : up = true ∧ (w.shelf.save key content run.version now).2 = true
      · simp only [World.step, hrun, if_pos hlands]
        refine ⟨fun hnil => by simp at hnil, fun _ old hold => ?_⟩
        rw [Shelf.value_save hlands.2, Option.some.injEq] at hold
        exact hold ▸ List.mem_cons_self
      · simpa only [World.step, hrun, if_neg hlands] using h

omit [Host] in
theorem Seen.not_blind {key : Str} {first : Shelf} {w : World} (h : Seen key first w) (a : Act) :
    ¬Blind key w a := by
  cases a with
  | load r c up => exact id
  | save r content now up =>
    rintro ⟨run, old, hrun, -, -, hold, hne, hfresh, hread⟩
    by_cases hnil : w.saved = []
    · obtain ⟨hshelf, hruns⟩ := h.unsaved hnil
      exact hread (hruns r run hrun old (hshelf ▸ hold) hne)
    · exact hfresh (h.saved hnil old hold)

theorem Seen.neverBlind {key : Str} {first : Shelf} (husable : ∀ c old,
    first.value key = some old → old ≠ [] → ¬Unusable c first.isBus key old) {w : World}
    (h : Seen key first w) (acts : List Act) : NeverBlind key w acts := by
  induction acts generalizing w with
  | nil => trivial
  | cons a acts ih =>
    exact ⟨h.not_blind a, ih (h.step fun _ c _ _ old => husable c old)⟩

/-- A run that loads such a value saves over it. -/
theorem overwritten_of_unusable {c : Client} {key stored : Str} {version : ℕ} {shelf : Shelf}
    (hans : shelf.answer key = .row stored version) (hne : stored ≠ [])
    (hun : Unusable c shelf.isBus key stored) (content : Str) (now : ℤ) :
    ¬NeverBlind key (.start shelf) [.load 0 c true, .save 0 content now true] := by
  have hfresh := loadLedger_fresh.mpr (.inr ⟨stored, hans, hun⟩)
  have hloaded : (World.start shelf).loaded key c true = some ⟨version, none⟩ := by
    simp only [World.loaded, World.start, if_true, hfresh]
  intro h
  refine h.2.1 ⟨⟨version, none⟩, stored, ?_, rfl, Shelf.save_answer hans,
    Shelf.value_answer hans, hne, ?_, ?_⟩
  · simp only [World.step, Function.update_self, hloaded]
  · simp [World.step, World.start]
  · simp

/-- A load starts a fresh ledger for an absent key only, and no order of loads and saves of
`ask_falsify` runs overwrites a value unread, exactly as far as no stored text can be read
without being a ledger. -/
theorem fresh_ledger_iff (session : Str) :
    (∀ (c : Client) (bus : Bool) (answer : RowAnswer),
      ((∃ v, loadLedger c bus (ledgerKey session) answer = .ok (.fresh v)) → answer = .absent) ↔
        ∀ stored version, answer = .row stored version →
          ¬Unusable c bus (ledgerKey session) stored) ∧
    ∀ shelf : Shelf,
      (∀ acts, NeverBlind (ledgerKey session) (.start shelf) acts) ↔
        ∀ c old, shelf.value (ledgerKey session) = some old → old ≠ [] →
          ¬Unusable c shelf.isBus (ledgerKey session) old := by
  refine ⟨fun c bus answer => ⟨fun h stored version hrow hun => ?_, fun h => ?_⟩,
    fun shelf => ⟨fun h c old hold hne hun => ?_, fun husable acts => ?_⟩⟩
  · have habsent := h ⟨version, loadLedger_fresh.mpr (.inr ⟨stored, hrow, hun⟩)⟩
    rw [hrow] at habsent
    simp at habsent
  · rintro ⟨v, hv⟩
    rcases loadLedger_fresh.mp hv with ⟨habsent, -⟩ | ⟨stored, hrow, hun⟩
    · exact habsent
    · exact absurd hun (h stored v hrow)
  · -- load the text, then save over it
    cases hans : shelf.answer (ledgerKey session) with
    | failed => cases shelf with
      | bus held => cases held <;> simp [Shelf.answer] at hans
      | table t =>
        simp only [Shelf.answer] at hans
        split at hans <;> simp at hans
    | absent =>
      rw [Shelf.answer_absent hans] at hold
      simp at hold
    | row stored version =>
      have hstored : stored = old := by
        rw [Shelf.value_answer hans, Option.some.injEq] at hold
        exact hold
      subst hstored
      exact overwritten_of_unusable hans hne hun [] 0 (h _)
  · have hstart : Seen (ledgerKey session) shelf (.start shelf) :=
      ⟨fun _ => ⟨rfl, fun r run hrun => by simp [World.start] at hrun⟩,
        fun hne => absurd rfl hne⟩
    exact hstart.neverBlind husable acts

end

/-- A client of the local store without keys. -/
def plainClient : Client :=
  ⟨⟨true, fun _ _ _ _ => none, fun _ _ _ _ => none, fun _ _ => []⟩, ⟨false, []⟩, none,
    .error ⟨.KeyringError, []⟩⟩

/-- The start of a ledger's text. -/
def cutShort : Str := txt "\x7b\"falsify_version\": 1"

/-- A table whose one row holds it. -/
def truncated : Table where
  rows := [⟨ledgerKey (txt "s"), cutShort, 0, [], 1⟩]
  unique := List.nodup_singleton _
  named := by
    intro r hr
    rw [List.mem_singleton.mp hr]
    simp [ledgerKey, txt]
  versioned := by
    intro r hr
    rw [List.mem_singleton.mp hr]
    exact Nat.one_pos

theorem answer_truncated :
    (Shelf.table truncated).answer (ledgerKey (txt "s")) = .row cutShort 1 := by
  have hstrip : strip (ledgerKey (txt "s")) = ledgerKey (txt "s") := by decide +kernel
  simp only [Shelf.answer, rowVersioned, hstrip]
  rw [if_neg (by simp [ledgerKey, txt])]
  simp [Table.row?, truncated]

/-- The row is read, a fresh ledger with its version starts, and the first save lands on
it. -/
theorem truncated_overwritten :
    @loadLedger Host.ascii plainClient false (ledgerKey (txt "s"))
      ((Shelf.table truncated).answer (ledgerKey (txt "s"))) = .ok (.fresh 1) ∧
    ¬@NeverBlind Host.ascii (ledgerKey (txt "s")) (.start (.table truncated))
      [.load 0 plainClient true, .save 0 (txt "fresh") 0 true] := by
  let : Host := Host.ascii
  have hun : Unusable plainClient false (ledgerKey (txt "s")) cutShort :=
    unusable_plain (by decide +kernel) (ledgerOf_unparsed (by decide +kernel))
  exact ⟨loadLedger_fresh.mpr (.inr ⟨_, answer_truncated, hun⟩),
    overwritten_of_unusable answer_truncated (by simp [cutShort, txt]) hun _ _⟩

end AskFable.Store.Session

import AskFable.Bus.Reader
import AskFable.Bus.RoundTrip
import AskFable.General.Watermark
import AskFable.General.Machine

/-!
# The daemon's floor and the readers' marks

A put is compared with the stored timestamp only, a read with the largest timestamp the
reader has accepted. Over a run, the timestamps accepted for a key form a register whose
writes are guarded step by step; what readers need is more, and the difference is a gap
that a put may fall in.
-/
namespace AskFable.Bus
open AskFable.Text AskFable.Python AskFable.Python.Bytes AskFable.Watermark
  AskFable.Fallible

/-- A timestamp, less the slack both floors leave. -/
def slackBelow (ts : ℤ) : ℤ := ts - FLOOR_SLACK_NS

/-! ### Sweeps only remove -/

theorem row?_sweepWriter (cap : ℕ) (t : BusTable) (writer key : Str) :
    (sweepWriter cap t writer).row? key = t.row? key ∨
      (sweepWriter cap t writer).row? key = none := by
  unfold sweepWriter
  dsimp only
  split_ifs
  · rw [BusTable.row?_remove]
    split_ifs
    · exact .inr rfl
    · exact .inl rfl
  · exact .inl rfl

theorem row?_sweepBus (t : BusTable) (cap : ℕ) (key : Str) :
    (sweepBus t cap).row? key = t.row? key ∨ (sweepBus t cap).row? key = none := by
  unfold sweepBus
  split_ifs
  · exact .inl rfl
  · refine Machine.foldl_invariant (sweepWriter cap)
      (I := fun t' => t'.row? key = t.row? key ∨ t'.row? key = none) ?_ (.inl rfl) _
    intro t' writer h
    rcases row?_sweepWriter cap t' writer key with heq | hnone
    · rw [heq]
      exact h
    · exact .inr hnone

theorem row?_accepted (st : Daemon) (maxRows : ℕ) (t : BusTable) (key : Str) :
    (st.accepted maxRows t).table.row? key = t.row? key ∨
      (st.accepted maxRows t).table.row? key = none := by
  unfold Daemon.accepted
  split_ifs
  · exact row?_sweepBus t maxRows key
  · exact .inl rfl

/-! ### What one request does -/

section
variable [Host]

/-- A request that may change a key. -/
inductive Act
  | put (payload : Dict) (ifMatch : Option Str) (now received : ℤ)
  | delete (payload : Dict)

def Daemon.step (maxRows : ℕ) (st : Daemon) : Act → Daemon
  | .put payload ifMatch now received => (st.put maxRows payload ifMatch now received).1
  | .delete payload => (st.delete payload).1

/-- The timestamp of a put for the key that is answered with 200. -/
def landed (maxRows : ℕ) (key : Str) (st : Daemon) : Act → Option ℤ
  | .put payload ifMatch now received =>
    match putRequest payload ifMatch now received,
        (st.put maxRows payload ifMatch now received).2 with
    | .ok (row, _), .ok .ok => if row.key = key then some row.writerTs else none
    | _, _ => none
  | .delete _ => none

omit [Host] in
theorem conflict_ne_ok (t : BusTable) (key : Str) (expected : Option ℤ) :
    conflict t key expected ≠ .ok := by
  unfold conflict
  dsimp only
  split_ifs <;> simp

/-- A put is accepted through its upsert, or changes nothing. -/
theorem put_cases (st : Daemon) (maxRows : ℕ) (payload : Dict) (ifMatch : Option Str)
    (now received : ℤ) :
    (∃ row expected, putRequest payload ifMatch now received = .ok (row, expected) ∧
      (upsert st.table row expected).2 = true ∧
      st.put maxRows payload ifMatch now received =
        (st.accepted maxRows (upsert st.table row expected).1, .ok .ok)) ∨
    ((st.put maxRows payload ifMatch now received).1 = st ∧
      (st.put maxRows payload ifMatch now received).2 ≠ .ok .ok) := by
  unfold Daemon.put
  cases hreq : putRequest payload ifMatch now received with
  | error stop => cases stop <;> simp
  | ok p =>
    obtain ⟨row, expected⟩ := p
    by_cases hup : (upsert st.table row expected).2 = true
    · exact .inl ⟨row, expected, rfl, hup, by simp [hup]⟩
    · refine .inr ?_
      simp [hup, conflict_ne_ok]

omit [Host] in
theorem bound_ok {r : Except Fault Unit} {u : Unit} (h : bound r = .ok u) : r = .ok () := by
  cases r with
  | error f => simp [bound] at h
  | ok u => rfl

omit [Host] in
theorem check_ok {α : Type} {c : Prop} [Decidable c] {status : ℕ} {error : Str}
    {x : Except Stop α} {b : α} (h : (if c then refuse status error else x) = .ok b) :
    ¬c ∧ x = .ok b := by
  by_cases hc : c
  · simp [hc, refuse] at h
  · exact ⟨hc, by simpa [hc] using h⟩

/-- What reaches the database: a key that is stripped and not empty, an envelope with a header,
and parameters that can be bound. -/
theorem putRequest_accepts {payload : Dict} {ifMatch : Option Str} {now received : ℤ} {row : BusRow}
    {expected : Option ℤ} (h : putRequest payload ifMatch now received = .ok (row, expected)) :
    strip row.key = row.key ∧ row.key ≠ [] ∧ (∃ ts, headerOf row.envelope = .ok (row.writer, ts)) ∧
      bindText row.key = .ok () ∧ bindInt row.writerTs = .ok () := by
  unfold putRequest at h
  dsimp only at h
  obtain ⟨hsent, h⟩ := check_ok h
  obtain ⟨⟨writer, ts⟩, hheader, h⟩ := of_bind_ok h
  obtain ⟨-, h⟩ := check_ok h
  obtain ⟨sent, -, h⟩ := of_bind_ok h
  obtain ⟨-, h⟩ := check_ok h
  obtain ⟨-, h⟩ := check_ok h
  obtain ⟨bytes, -, h⟩ := of_bind_ok h
  obtain ⟨exp, -, h⟩ := of_bind_ok h
  obtain ⟨_, hkey, h⟩ := of_bind_ok h
  obtain ⟨_, -, h⟩ := of_bind_ok h
  obtain ⟨_, hts, h⟩ := of_bind_ok h
  obtain ⟨_, -, h⟩ := of_bind_ok h
  obtain ⟨_, -, h⟩ := of_bind_ok h
  obtain ⟨_, -, h⟩ := of_bind_ok h
  simp only [pure, Except.pure, Except.ok.injEq, Prod.mk.injEq] at h
  obtain ⟨rfl, -⟩ := h
  exact ⟨strip_strip _, fun hnil => hsent (.inl hnil), ⟨ts, hheader⟩, bound_ok hkey, bound_ok hts⟩

/-- A request whose parts can all be read and bound reaches the database. -/
theorem putRequest_of {payload : Dict} {ifMatch : Option Str} {now received : ℤ}
    {key envelope writer : Str} {ts : ℕ} {bytes : ℤ} {expected : Option ℤ}
    (hkey : strip (Dict.text payload (txt "key")) = key)
    (henvelope : Dict.text payload (txt "envelope") = envelope)
    (hwriter : Dict.text payload (txt "writer") = writer)
    (hne : key ≠ [] ∧ envelope ≠ []) (hheader : headerOf envelope = .ok (writer, ts))
    (hsent : sentTs payload = .ok (ts : ℤ)) (hnow : (ts : ℤ) ≤ now + FLOOR_SLACK_NS)
    (hbytes : sentBytes payload = .ok bytes) (hmatch : matchTs ifMatch = .ok expected)
    (hbind : bindText key = .ok () ∧ bindText writer = .ok () ∧ bindInt ts = .ok () ∧
      bindText envelope = .ok () ∧ bindInt bytes = .ok () ∧
      expected.elim (.ok ()) bindInt = .ok ()) :
    putRequest payload ifMatch now received =
      .ok (⟨key, writer, ts, received, envelope, bytes⟩, expected) := by
  have hok {α β : Type} (a : α) (f : α → Except Stop β) : ((.ok a : Except Stop α) >>= f) = f a := rfl
  have hbound {r : Except Fault Unit} (h : r = .ok ()) : bound r = .ok () := by rw [h, bound]
  obtain ⟨hk, hw, hts, henv, hb, hexpected⟩ := hbind
  unfold putRequest
  dsimp only
  rw [hkey, henvelope, hwriter, if_neg (not_or.mpr hne), hheader, hok]
  dsimp only
  rw [if_neg (not_not.mpr rfl), hsent, hok, if_neg (not_not.mpr rfl), if_neg (not_lt.mpr hnow),
    hbytes, hok, hmatch, hok, hbound hk, hok, hbound hw, hok, hbound hts, hok, hbound henv, hok,
    hbound hb, hok, hbound hexpected, hok]
  rfl

/-- A put that lands is above the stored timestamp's floor and becomes the stored one,
unless its own sweep takes it away. -/
theorem step_landed {maxRows : ℕ} {key : Str} {st : Daemon} {a : Act} {ts : ℤ}
    (h : landed maxRows key st a = some ts) :
    strip key = key ∧ bindText key = .ok () ∧ bindInt ts = .ok () ∧
      (∀ old, st.table.row? key = some old → slackBelow old.writerTs ≤ ts) ∧
      ∀ row, (st.step maxRows a).table.row? key = some row → row.writerTs = ts := by
  cases a with
  | delete payload => simp [landed] at h
  | put payload ifMatch now received =>
    rcases put_cases st maxRows payload ifMatch now received with
      ⟨row, expected, hreq, hup, hput⟩ | ⟨-, hne⟩
    · simp only [landed, hreq, hput, ite_eq_iff, Option.some.injEq, reduceCtorEq, and_false,
        or_false] at h
      obtain ⟨rfl, rfl⟩ := h
      obtain ⟨hstrip, -, -, hkey, hts⟩ := putRequest_accepts hreq
      rcases upsert_cases st.table row expected with ⟨hno, -⟩ | ⟨-, hrow, hguard⟩
      · rw [hno] at hup
        exact absurd hup (by simp)
      · refine ⟨hstrip, hkey, hts, fun old hold => (hguard old hold).1, fun r hr => ?_⟩
        simp only [Daemon.step, hput] at hr
        rcases row?_accepted st maxRows (upsert st.table row expected).1 row.key with heq | hnone
        · rw [heq, hrow, if_pos rfl] at hr
          rw [← Option.some.inj hr]
        · rw [hnone] at hr
          exact absurd hr (by simp)
    · simp only [landed] at h
      split at h
      · rename_i hok
        exact absurd hok hne
      · exact absurd h (by simp)

/-- Any other request leaves the key as it is, or removes it. -/
theorem step_other {maxRows : ℕ} {key : Str} {st : Daemon} {a : Act}
    (h : landed maxRows key st a = none) :
    (st.step maxRows a).table.row? key = st.table.row? key ∨
      (st.step maxRows a).table.row? key = none := by
  cases a with
  | delete payload =>
    simp only [Daemon.step, Daemon.delete]
    split
    · simp only [BusTable.row?_remove]
      split_ifs
      · exact .inr rfl
      · exact .inl rfl
    · exact .inl rfl
  | put payload ifMatch now received =>
    rcases put_cases st maxRows payload ifMatch now received with
      ⟨row, expected, hreq, hup, hput⟩ | ⟨hsame, -⟩
    · have hkey : row.key ≠ key := by
        intro heq
        simp [landed, hreq, hput, heq] at h
      have hrow : (upsert st.table row expected).1.row? key = st.table.row? key := by
        rcases upsert_cases st.table row expected with ⟨hno, -⟩ | ⟨-, hrow, -⟩
        · rw [hno]
        · rw [hrow, if_neg hkey]
      rw [← hrow, Daemon.step, hput]
      exact row?_accepted st maxRows _ key
    · rw [Daemon.step, hsame]
      exact .inl rfl

/-! ### Runs of one key -/

/-- The stored timestamp of a key. -/
def Daemon.stored (st : Daemon) (key : Str) : Option ℤ := (st.table.row? key).map BusRow.writerTs

/-- Nothing in the run removes the key once it is stored. -/
def Undeleted (maxRows : ℕ) (key : Str) : Daemon → List Act → Prop
  | _, [] => True
  | st, a :: as =>
    ((st.stored key).isSome ∨ (landed maxRows key st a).isSome →
      ((st.step maxRows a).stored key).isSome) ∧
    Undeleted maxRows key (st.step maxRows a) as

/-- The timestamps accepted for the key, in order. -/
def accepted (maxRows : ℕ) (key : Str) : Daemon → List Act → List ℤ
  | _, [] => []
  | st, a :: as => (landed maxRows key st a).toList ++ accepted maxRows key (st.step maxRows a) as

/-- One step of a run that removes nothing: the stored timestamp is the accepted one, if
any. -/
theorem stored_step {maxRows : ℕ} {key : Str} {st : Daemon} {a : Act} {as : List Act}
    (h : Undeleted maxRows key st (a :: as)) :
    (st.step maxRows a).stored key = (landed maxRows key st a).or (st.stored key) := by
  have hkeep := h.1
  cases hl : landed maxRows key st a with
  | some ts =>
    obtain ⟨-, -, -, -, hrow⟩ := step_landed hl
    have hsome := hkeep (.inr (by rw [hl]; rfl))
    cases hr : (st.step maxRows a).table.row? key with
    | none => simp [Daemon.stored, hr] at hsome
    | some row => simp [Daemon.stored, hr, hrow row hr]
  | none =>
    rw [Option.none_or]
    rcases step_other hl with heq | hnone
    · rw [Daemon.stored, heq, Daemon.stored]
    · cases hst : st.stored key with
      | none => rw [Daemon.stored, hnone, Option.map_none]
      | some ts =>
        have hsome := hkeep (.inl (by rw [hst]; rfl))
        simp [Daemon.stored, hnone] at hsome

/-- After a run the last accepted timestamp is stored. -/
theorem stored_foldl {maxRows : ℕ} {key : Str} {as : List Act} {st : Daemon}
    (h : Undeleted maxRows key st as) :
    (as.foldl (Daemon.step maxRows) st).stored key =
      (accepted maxRows key st as).getLast?.or (st.stored key) := by
  induction as generalizing st with
  | nil => rfl
  | cons a as ih =>
    rw [List.foldl_cons, ih h.2, stored_step h, accepted, List.getLast?_append, Option.or_assoc]
    cases landed maxRows key st a <;> rfl

/-- Each accepted timestamp is above the floor of the one before it. -/
theorem accepted_guarded {maxRows : ℕ} {key : Str} {as : List Act} {st : Daemon}
    (h : Undeleted maxRows key st as) :
    Guarded slackBelow ((st.stored key).toList ++ accepted maxRows key st as) := by
  induction as generalizing st with
  | nil => cases st.stored key <;> simp [Guarded, accepted]
  | cons a as ih =>
    have hrest := ih h.2
    rw [stored_step h] at hrest
    rw [accepted]
    cases hl : landed maxRows key st a with
    | none => simpa [hl] using hrest
    | some ts =>
      obtain ⟨-, -, -, hfloor, -⟩ := step_landed hl
      rw [hl, Option.some_or] at hrest
      cases hst : st.table.row? key with
      | none => simpa [Daemon.stored, hst] using hrest
      | some old =>
        have hle := hfloor old hst
        simp only [Daemon.stored, hst, Option.map_some, Option.toList_some,
          List.singleton_append] at hrest ⊢
        exact List.isChain_cons_cons.mpr ⟨hle, hrest⟩

theorem Undeleted.initial {maxRows : ℕ} {key : Str} {pre as : List Act} {st : Daemon}
    (h : Undeleted maxRows key st as) (hpre : pre <+: as) : Undeleted maxRows key st pre := by
  induction pre generalizing st as with
  | nil => trivial
  | cons a pre ih =>
    obtain ⟨as', rfl, hpre'⟩ := List.cons_prefix_iff.mp hpre
    exact ⟨h.1, ih h.2 hpre'⟩

theorem accepted_initial {maxRows : ℕ} {key : Str} {pre as : List Act} {st : Daemon}
    (hpre : pre <+: as) : accepted maxRows key st pre <+: accepted maxRows key st as := by
  induction pre generalizing st as with
  | nil => exact List.nil_prefix
  | cons a pre ih =>
    obtain ⟨as', rfl, hpre'⟩ := List.cons_prefix_iff.mp hpre
    exact (List.prefix_append_right_inj _).mpr (ih hpre')

/-- The accepted timestamps up to some point are those of some moment of the run. -/
theorem exists_moment {maxRows : ℕ} {key : Str} {ps : List ℤ} {as : List Act} {st : Daemon}
    (h : ps <+: accepted maxRows key st as) :
    ∃ pre, pre <+: as ∧ accepted maxRows key st pre = ps := by
  induction as generalizing st ps with
  | nil => exact ⟨[], List.nil_prefix, (List.prefix_nil.mp h).symm⟩
  | cons a as ih =>
    rw [accepted] at h
    cases hl : landed maxRows key st a with
    | none =>
      rw [hl] at h
      obtain ⟨pre, hpre, hps⟩ := ih h
      exact ⟨a :: pre, List.cons_prefix_cons.mpr ⟨rfl, hpre⟩, by simp [accepted, hl, hps]⟩
    | some ts =>
      rw [hl] at h
      cases ps with
      | nil => exact ⟨[], List.nil_prefix, rfl⟩
      | cons p ps =>
        obtain ⟨rfl, hrest⟩ := List.cons_prefix_cons.mp h
        obtain ⟨pre, hpre, hps⟩ := ih hrest
        exact ⟨a :: pre, List.cons_prefix_cons.mpr ⟨rfl, hpre⟩, by simp [accepted, hl, hps]⟩

/-- At every moment the stored timestamp is above the floor of everything accepted. -/
def FloorHolds (maxRows : ℕ) (key : Str) (st : Daemon) (as : List Act) : Prop :=
  ∀ pre, pre <+: as → ∀ stored ∈ (pre.foldl (Daemon.step maxRows) st).stored key,
    ∀ ts ∈ accepted maxRows key st pre, ts - FLOOR_SLACK_NS ≤ stored

theorem floorHolds_iff {maxRows : ℕ} {key : Str} {st : Daemon} {as : List Act}
    (hnew : st.stored key = none) (h : Undeleted maxRows key st as) :
    FloorHolds maxRows key st as ↔ Floored slackBelow (accepted maxRows key st as) := by
  have hlast {pre : List Act} (hpre : pre <+: as) :
      (pre.foldl (Daemon.step maxRows) st).stored key = (accepted maxRows key st pre).getLast? := by
    rw [stored_foldl (h.initial hpre), hnew, Option.or_none]
  constructor
  · intro hfloor
    refine pairwise_iff_past.mpr fun ps y hps x hx => ?_
    obtain ⟨pre, hpre, hacc⟩ := exists_moment hps
    refine hfloor pre hpre y ?_ x ?_
    · rw [hlast hpre, hacc, List.getLast?_concat]
      rfl
    · rw [hacc]
      exact List.mem_append_left _ hx
  · intro hfloor pre hpre stored hstored ts hts
    rw [hlast hpre] at hstored
    obtain ⟨init, hinit⟩ := List.getLast?_eq_some_iff.mp hstored
    have hp := (hfloor.sublist (accepted_initial hpre).sublist)
    rw [hinit] at hp hts
    rcases List.mem_append.mp hts with hts | hts
    · exact (List.pairwise_append.mp hp).2.2 ts hts stored (List.mem_singleton_self _)
    · rw [List.mem_singleton.mp hts]
      unfold FLOOR_SLACK_NS
      omega

/-! ### The honest reader -/

/-- The daemon and the marks of one reader. -/
structure Site where
  daemon : Daemon
  marks : Option Marks

/-- One read of a key: what the daemon serves is put to the rollback guard. -/
def Site.read (g : Guard) (key : Str) (s : Site) : Site × Except HwmError Unit :=
  match s.daemon.get [(txt "key", .str key)] with
  | .ok (some row) =>
    let (marks, guarded) := check g s.marks key row.writerTs
    ({ s with marks }, guarded)
  | _ => (s, .ok ())

/-- What can happen: a request, or a read by the reader. -/
inductive Move
  | request (a : Act)
  | read

def requests : List Move → List Act
  | [] => []
  | .request a :: ms => a :: requests ms
  | .read :: ms => requests ms

/-- Some read of the run ends in `RollbackDetected`. -/
def RolledBack (g : Guard) (maxRows : ℕ) (key : Str) : Site → List Move → Prop
  | _, [] => False
  | s, .request a :: ms =>
    RolledBack g maxRows key { s with daemon := s.daemon.step maxRows a } ms
  | s, .read :: ms =>
    (∃ text, (s.read g key).2 = .error (.rollback text)) ∨
      RolledBack g maxRows key (s.read g key).1 ms

/-- The run as a register sees it. -/
def events (maxRows : ℕ) (key : Str) : Daemon → List Move → List (Event ℤ)
  | _, [] => []
  | st, .request a :: ms =>
    (landed maxRows key st a).toList.map .write ++ events maxRows key (st.step maxRows a) ms
  | st, .read :: ms => .read :: events maxRows key st ms

omit [Host] in
theorem writes_append (ts : List ℤ) (es : List (Event ℤ)) :
    writes (ts.map .write ++ es) = ts ++ writes es := by
  induction ts with
  | nil => rfl
  | cons t ts ih => simp [writes, ih]

theorem writes_events (maxRows : ℕ) (key : Str) (st : Daemon) (ms : List Move) :
    writes (events maxRows key st ms) = accepted maxRows key st (requests ms) := by
  induction ms generalizing st with
  | nil => rfl
  | cons move ms ih =>
    cases move with
    | request a => rw [events, writes_append, ih, requests, accepted]
    | read => exact ih st

/-- What is stored under the key can be bound, as what was accepted could. -/
def Bound (key : Str) (st : Daemon) : Prop :=
  ∀ ts ∈ st.stored key, strip key = key ∧ bindText key = .ok () ∧ bindInt ts = .ok ()

theorem Bound.step {maxRows : ℕ} {key : Str} {st : Daemon} {a : Act} {as : List Act}
    (h : Bound key st) (hkeep : Undeleted maxRows key st (a :: as)) :
    Bound key (st.step maxRows a) := by
  intro ts hts
  rw [stored_step hkeep] at hts
  cases hl : landed maxRows key st a with
  | none =>
    rw [hl, Option.none_or] at hts
    exact h ts hts
  | some ts' =>
    obtain ⟨hstrip, hkey, hbind, -⟩ := step_landed hl
    rw [hl, Option.some_or] at hts
    rw [← Option.some.inj hts]
    exact ⟨hstrip, hkey, hbind⟩

omit [Host] in
theorem stale_iff (m : Marks) (key : Str) (ts : ℤ) :
    stale m key ts = true ↔ refused slackBelow (m key) ts := by
  unfold stale refused slackBelow SLACK_NS
  cases m key <;> simp

theorem text_key (key : Str) : Dict.text [(txt "key", .str key)] (txt "key") = key := by
  cases key with
  | nil => simp [Dict.text, Dict.getOr, Dict.get, Json.truthy, Json.pyStr]
  | cons c key => simp [Dict.text, Dict.getOr, Dict.get, Json.truthy, Json.pyStr]

/-- A read of a key that is not stored changes nothing. -/
theorem read_absent (g : Guard) {key : Str} {s : Site} (hstrip : strip key = key)
    (h : s.daemon.stored key = none) : s.read g key = (s, .ok ()) := by
  have hrow : s.daemon.table.row? key = none := Option.map_eq_none_iff.mp h
  simp only [Site.read, Daemon.get, text_key, hstrip, hrow]
  cases bindText key <;> rfl

/-- A read of a stored timestamp, by whether the mark forbids it. -/
theorem read_stored {g : Guard} (hg : g.enabled = true) {key : Str} {st : Daemon} {m : Marks}
    (hbound : Bound key st) {ts : ℤ} (hts : st.stored key = some ts) :
    (refused slackBelow (m key) ts ∧
      ∃ text, Site.read g key ⟨st, some m⟩ = (⟨st, some m⟩, .error (.rollback text))) ∨
    (¬refused slackBelow (m key) ts ∧
      Site.read g key ⟨st, some m⟩ = (⟨st, some (bump m key ts)⟩, .ok ())) := by
  obtain ⟨hstrip, hkey, hbind⟩ := hbound ts hts
  obtain ⟨row, hrow, rfl⟩ := Option.map_eq_some_iff.mp hts
  have hget : st.get [(txt "key", .str key)] = .ok (some row) := by
    simp only [Daemon.get, text_key, hstrip, hkey, hrow]
  rw [← stale_iff]
  by_cases hstale : stale m key row.writerTs = true
  · refine .inl ⟨hstale, rollbackText key row.writerTs ((m key).getD 0), ?_⟩
    simp only [Site.read, hget, check, hg, if_true, hkey, hstale]
  · refine .inr ⟨hstale, ?_⟩
    simp only [Site.read, hget, check, hg, if_true, hkey, hstale, hbind]
    rfl

omit [Host] in
theorem bump_self (m : Marks) (key : Str) (ts : ℤ) : bump m key ts key = some (note (m key) ts) := by
  simp [bump, note]

/-- The reader is refused in the run exactly when the register's reader is. -/
theorem rolledBack_iff {g : Guard} (hg : g.enabled = true) {maxRows : ℕ} {key : Str}
    {ms : List Move} {st : Daemon} {m : Marks} (hstrip : strip key = key) (hbound : Bound key st)
    (hkeep : Undeleted maxRows key st (requests ms)) :
    RolledBack g maxRows key ⟨st, some m⟩ ms ↔
      Refusal slackBelow (st.stored key) (m key) (events maxRows key st ms) := by
  induction ms generalizing st m with
  | nil => simp [RolledBack, Refusal, events]
  | cons move ms ih =>
    cases move with
    | request a =>
      have hrest := ih (m := m) (hbound.step hkeep) hkeep.2
      rw [RolledBack, hrest, stored_step hkeep, events]
      cases landed maxRows key st a with
      | none => rfl
      | some ts => cases st.stored key <;> rfl
    | read =>
      cases hst : st.stored key with
      | none =>
        have hsame := read_absent g (s := ⟨st, some m⟩) hstrip hst
        have hrest := ih (m := m) hbound hkeep
        rw [hst] at hrest
        simpa [RolledBack, hsame, events, Refusal] using hrest
      | some ts =>
        rcases read_stored (m := m) hg hbound hst with ⟨hrefused, text, hread⟩ | ⟨hpass, hread⟩
        · simp [RolledBack, hread, events, Refusal, hrefused]
        · have hrest := ih (m := bump m key ts) hbound hkeep
          rw [hst, bump_self] at hrest
          simp [RolledBack, hread, events, Refusal, hpass, hrest]

/-- The schedule that reads after every accepted put. -/
def watch (maxRows : ℕ) (key : Str) : Daemon → List Act → List Move
  | _, [] => []
  | st, a :: as =>
    .request a :: ((landed maxRows key st a).toList.map fun _ => Move.read) ++
      watch maxRows key (st.step maxRows a) as

theorem requests_watch (maxRows : ℕ) (key : Str) (st : Daemon) (as : List Act) :
    requests (watch maxRows key st as) = as := by
  induction as generalizing st with
  | nil => rfl
  | cons a as ih =>
    rw [watch]
    cases landed maxRows key st a <;> simp [requests, ih]

theorem events_watch (maxRows : ℕ) (key : Str) (st : Daemon) (as : List Act) :
    events maxRows key st (watch maxRows key st as) = vigilant (accepted maxRows key st as) := by
  induction as generalizing st with
  | nil => rfl
  | cons a as ih =>
    have hrest := ih (st.step maxRows a)
    rw [watch, accepted]
    cases hl : landed maxRows key st a with
    | none => simpa [events, hl] using hrest
    | some ts =>
      have hcons (xs : List ℤ) : vigilant (ts :: xs) = .write ts :: .read :: vigilant xs := rfl
      simp [events, hl, hrest, hcons]

omit [Host] in
theorem slackBelow_le (ts : ℤ) : slackBelow ts ≤ ts := by
  unfold slackBelow FLOOR_SLACK_NS
  omega

omit [Host] in
theorem slackBelow_mono {a b : ℤ} (h : a ≤ b) : slackBelow a ≤ slackBelow b := by
  unfold slackBelow
  omega

/-- In a run of puts that nothing removes, the floor bounds the disorder, and no reader
ever sees a rollback, exactly when no accepted timestamp falls between the stored
timestamp's floor and that of an earlier one. -/
theorem replay_floor {g : Guard} (hg : g.enabled = true) (maxRows : ℕ) (name : Str)
    {st : Daemon} {m : Marks} {as : List Act} (hnew : st.stored (strip name) = none)
    (hmark : m (strip name) = none) (hkeep : Undeleted maxRows (strip name) st as) :
    (FloorHolds maxRows (strip name) st as ↔
      ∀ past ts, past ++ [ts] <+: accepted maxRows (strip name) st as →
        ¬Gap slackBelow past ts) ∧
    ((∀ ms, requests ms = as → ¬RolledBack g maxRows (strip name) ⟨st, some m⟩ ms) ↔
      ∀ past ts, past ++ [ts] <+: accepted maxRows (strip name) st as →
        ¬Gap slackBelow past ts) := by
  have hguard : Guarded slackBelow (accepted maxRows (strip name) st as) := by
    have h := accepted_guarded hkeep
    rwa [hnew] at h
  have hbound : Bound (strip name) st := fun ts hts => by
    rw [hnew] at hts
    exact absurd hts (by simp)
  have hreader {ms : List Move} (hms : requests ms = as) :
      RolledBack g maxRows (strip name) ⟨st, some m⟩ ms ↔
        Refusal slackBelow none none (events maxRows (strip name) st ms) := by
    rw [rolledBack_iff hg (strip_strip name) hbound (hms ▸ hkeep), hnew, hmark]
  rw [floorHolds_iff hnew hkeep, ← floored_iff_noGap slackBelow hguard]
  refine ⟨Iff.rfl, fun h => ?_, fun h ms hms => ?_⟩
  · have hwatch := h (watch maxRows (strip name) st as) (requests_watch _ _ _ _)
    rw [hreader (requests_watch _ _ _ _), events_watch] at hwatch
    simpa using floored_of_vigilant slackBelow (fun _ _ => slackBelow_mono) [] (by simp) .nil hwatch
  · rw [hreader hms]
    refine not_refusal slackBelow slackBelow_le [] (by simp) ?_
    rw [List.nil_append, writes_events, hms]
    exact h

/-! ### Timestamps that creep down -/

/-- An envelope by writer `w` with the given timestamp. -/
def stamped (ts : ℕ) : Str :=
  MAGIC ++ b64encode (layout VER 1 (Utf8.encodePass (txt "w")) ts (zeros SALT_LEN).1
    (zeros NONCE_LEN).1 (zeros TAG_LEN).1)

/-- The request that stores it under the key `k`. -/
def stampedPut (ts : ℕ) : Dict :=
  [(txt "key", .str (txt "k")), (txt "envelope", .str (stamped ts)),
    (txt "writer", .str (txt "w")), (txt "ts_ns", .int ts)]

def stampedRow (ts : ℕ) : BusRow := ⟨txt "k", txt "w", ts, 0, stamped ts, 0⟩

omit [Host] in
theorem stamped_bindable (ts : ℕ) : bindText (stamped ts) = .ok () := by
  have hmagic : MAGIC.any isSurrogate = false := by decide
  have hany : (stamped ts).any isSurrogate = false := by
    rw [stamped, List.any_append, hmagic, b64encode_surrogate]
    rfl
  rw [bindText, hany]
  rfl

omit [Host] in
theorem headerOf_stamped {ts : ℕ} (hts : ts < 256 ^ 8) :
    headerOf (stamped ts) = .ok (txt "w", ts) := by
  have hw : (Utf8.encodePass (txt "w")).length ≤ WRITER_MAX := by decide
  have hparse := parse_armor VER 1 hw hts (zeros SALT_LEN).2 (zeros NONCE_LEN).2 (zeros TAG_LEN).2.ge
  rw [headerOf, envelopeMeta, stamped, hparse]
  rfl

/-- The stamped request reaches the database, with the timestamp its header is to match. -/
theorem putRequest_stamped {ts : ℕ} (now : ℤ) (hts : ts < 2 ^ 63) (hle : ts ≤ now)
    {ifMatch : Option Str} {expected : Option ℤ} (hmatch : matchTs ifMatch = .ok expected)
    (hexpected : expected.elim (.ok ()) bindInt = .ok ()) :
    putRequest (stampedPut ts) ifMatch now 0 = .ok (stampedRow ts, expected) := by
  have hsent : sentTs (stampedPut ts) = .ok (ts : ℤ) := by
    have hget : Dict.get (stampedPut ts) (txt "ts_ns") = some (.int ts) := by rfl
    by_cases hzero : ts = 0
    · subst hzero
      rfl
    · have htruthy : Json.truthy (.int ts) = true := by simp [Json.truthy, hzero]
      simp only [sentTs, Dict.getOr, hget, htruthy, if_true, Json.intOf]
  have hne : stamped ts ≠ [] := fun h => by simp [stamped, MAGIC, txt] at h
  have hbind : bindInt ts = .ok () := by
    rw [bindInt, if_pos (by omega)]
  have hnow : (ts : ℤ) ≤ now + FLOOR_SLACK_NS := by
    unfold FLOOR_SLACK_NS
    omega
  exact putRequest_of (by rfl) (by rfl) (by rfl) ⟨by decide, hne⟩
    (headerOf_stamped (by omega : ts < 256 ^ 8)) hsent hnow (by rfl) hmatch
    ⟨by decide, by decide, hbind, stamped_bindable ts, by decide, hexpected⟩

/-- The put at a time when all its envelopes are in the past. -/
def putStamped (ts : ℕ) : Act := .put (stampedPut ts) none (120 * 1000000000) 0

/-- Nothing but the floor keeps a stamped put out, when nothing is swept. -/
theorem step_stamped {st : Daemon} {ts : ℕ} (hts : ts ≤ 120 * 1000000000)
    (hfloor : ∀ old ∈ st.stored (txt "k"), slackBelow old ≤ ts) :
    landed 0 (txt "k") st (putStamped ts) = some (ts : ℤ) ∧
      (st.step 0 (putStamped ts)).stored (txt "k") = some (ts : ℤ) := by
  have hreq := putRequest_stamped (120 * 1000000000) (by omega : ts < 2 ^ 63) (by omega)
    (rfl : matchTs none = .ok none) rfl
  have hkept (t : BusTable) : (st.accepted 0 t).table = t := by
    simp [Daemon.accepted, sweepBus]
  rcases upsert_cases st.table (stampedRow ts) none with ⟨-, old, hold, hno⟩ | ⟨hup, hrow, -⟩
  · refine absurd ⟨?_, by simp⟩ hno
    have hkey : st.table.row? (txt "k") = some old := hold
    exact hfloor old.writerTs (by simp [Daemon.stored, hkey])
  · have hput : st.put 0 (stampedPut ts) none (120 * 1000000000) 0 =
        (st.accepted 0 (upsert st.table (stampedRow ts) none).1, .ok .ok) := by
      simp only [Daemon.put, hreq, hup, if_true]
    refine ⟨?_, ?_⟩
    · simp only [landed, putStamped, hreq, hput]
      rfl
    · have hk : (stampedRow ts).key = txt "k" := rfl
      simp only [Daemon.step, putStamped, hput, Daemon.stored, hkept, hrow, hk, if_true]
      rfl

/-- A run of stamped puts in which each is above the floor of the one before. -/
theorem accepted_stamped (tss : List ℕ) (st : Daemon) (hts : ∀ ts ∈ tss, ts ≤ 120 * 1000000000)
    (hchain : Guarded slackBelow ((st.stored (txt "k")).toList ++ tss.map Int.ofNat)) :
    Undeleted 0 (txt "k") st (tss.map putStamped) ∧
      accepted 0 (txt "k") st (tss.map putStamped) = tss.map Int.ofNat := by
  induction tss generalizing st with
  | nil => exact ⟨trivial, rfl⟩
  | cons ts tss ih =>
    have hfloor : ∀ old ∈ st.stored (txt "k"), slackBelow old ≤ ts := by
      intro old hold
      rw [Option.mem_def.mp hold] at hchain
      exact (List.isChain_cons_cons.mp hchain).1
    obtain ⟨hland, hstored⟩ := step_stamped (hts ts List.mem_cons_self) hfloor
    have hrest := ih (st.step 0 (putStamped ts))
      (fun t ht => hts t (List.mem_cons_of_mem _ ht)) (by
        rw [hstored]
        exact hchain.right_of_append)
    refine ⟨⟨fun _ => by rw [hstored]; rfl, hrest.1⟩, ?_⟩
    rw [List.map_cons, accepted, hland, hrest.2]
    rfl

end

theorem replay_floor_one :
    letI := Host.ascii
    FloorHolds 0 (strip (txt "k")) ⟨.empty, 0⟩ [putStamped 0] := by
  let _ := Host.ascii
  obtain ⟨hkeep, hacc⟩ := accepted_stamped [0] ⟨.empty, 0⟩ (by simp)
    (List.IsChain.singleton _)
  refine (replay_floor (g := ⟨true, []⟩) rfl 0 (txt "k") (m := fun _ => none) rfl rfl hkeep).1.mpr ?_
  rintro past ts hpre ⟨-, x, hx, -⟩
  have hlen : (past ++ [ts]).length ≤ 1 := by
    have hle := hpre.length_le
    rwa [show strip (txt "k") = txt "k" by decide, hacc] at hle
  have hpast : past = [] := List.eq_nil_of_length_eq_zero (by simpa using hlen)
  rw [hpast] at hx
  exact absurd hx List.not_mem_nil

/-- Three puts, each a minute older than the one before: the daemon accepts them all, and
a reader that looks after each is refused the last. -/
theorem floor_creeps :
    letI := Host.ascii
    ¬FloorHolds 0 (txt "k") ⟨.empty, 0⟩
        ([120 * 1000000000, 60 * 1000000000, 0].map putStamped) ∧
      RolledBack ⟨true, []⟩ 0 (txt "k") ⟨⟨.empty, 0⟩, some fun _ => none⟩
        (watch 0 (txt "k") ⟨.empty, 0⟩
          ([120 * 1000000000, 60 * 1000000000, 0].map putStamped)) := by
  let _ := Host.ascii
  obtain ⟨hkeep, hacc⟩ := accepted_stamped [120 * 1000000000, 60 * 1000000000, 0]
    ⟨.empty, 0⟩ (by simp) (by
      refine List.isChain_cons_cons.mpr ⟨by decide, List.isChain_cons_cons.mpr ⟨by decide, ?_⟩⟩
      exact List.IsChain.singleton _)
  constructor
  · intro h
    have hlast := h _ (List.prefix_refl _) 0 (by
      rw [stored_foldl hkeep, hacc]
      rfl) (120 * 1000000000) (by rw [hacc]; exact List.mem_cons_self)
    unfold FLOOR_SLACK_NS at hlast
    omega
  · have hbound : Bound (txt "k") ⟨.empty, 0⟩ := fun ts hts => absurd hts (by simp [Daemon.stored,
      BusTable.row?, BusTable.empty])
    refine (rolledBack_iff rfl (by decide) hbound ((requests_watch _ _ _ _).symm ▸ hkeep)).mpr ?_
    rw [events_watch, hacc]
    exact .inr ⟨by decide, .inr ⟨by decide, .inl (by decide)⟩⟩

end AskFable.Bus

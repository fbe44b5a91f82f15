import AskFable.Bus.ReplayFloor

/-!
# If-Match

The handlers' threads meet in the database, statement by statement. A put that names the
timestamp it has read is compared with the stored row, if there is one: the guard of the
upsert stands on its update arm only, and a key that is gone is written whatever
timestamp was named.
-/
namespace AskFable.Bus
open AskFable.Text AskFable.Python

section
variable [Host]

/-- A statement of some handler's thread: the guarded upsert of a put, a deletion, or what
one writer loses in a sweep. -/
inductive Stmt
  | put (payload : Dict) (ifMatch : Option Str) (now received : ℤ)
  | delete (payload : Dict)
  | evict (writer : Str) (n : ℕ)

namespace Stmt

/-- What a put stores, and the timestamp it is to match. -/
def request : Stmt → Option (BusRow × Option ℤ)
  | put payload ifMatch now received => (putRequest payload ifMatch now received).toOption
  | delete _ | evict _ _ => none

def exec (t : BusTable) : Stmt → BusTable
  | put payload ifMatch now received =>
    match putRequest payload ifMatch now received with
    | .ok (row, expected) => (upsert t row expected).1
    | .error _ => t
  | delete payload =>
    let key := strip (Dict.text payload (txt "key"))
    match bindText key with
    | .ok _ => t.remove (· == key)
    | .error _ => t
  | evict writer n => t.remove fun key => (oldestOf t writer n).contains key

/-- Whether a put is answered with 200. -/
def lands (t : BusTable) (s : Stmt) : Bool := s.request.any fun p => (upsert t p.1 p.2).2

/-- A put of the key that is to match the timestamp and brings another. -/
def rival (key : Str) (m : ℤ) (s : Stmt) : Bool :=
  s.request.any fun p => p.1.key == key && p.2 == some m && p.1.writerTs != m

end Stmt

theorem exec_put {payload : Dict} {ifMatch : Option Str} {now received : ℤ} {row : BusRow}
    {expected : Option ℤ} (h : putRequest payload ifMatch now received = .ok (row, expected))
    (t : BusTable) :
    Stmt.exec t (.put payload ifMatch now received) = (upsert t row expected).1 := by
  rw [Stmt.exec, h]

theorem exec_refused {payload : Dict} {ifMatch : Option Str} {now received : ℤ} {stop : Stop}
    (h : putRequest payload ifMatch now received = .error stop) (t : BusTable) :
    Stmt.exec t (.put payload ifMatch now received) = t := by
  rw [Stmt.exec, h]

/-- The first statement of a handler. -/
def Act.stmt : Act → Stmt
  | .put payload ifMatch now received => .put payload ifMatch now received
  | .delete payload => .delete payload

/-- A sweep is a row of evictions. -/
theorem sweepBus_evicts (t : BusTable) (cap : ℕ) :
    ∃ evicts : List Stmt, (∀ s ∈ evicts, ∃ w n, s = .evict w n) ∧
      sweepBus t cap = evicts.foldl Stmt.exec t := by
  have hfold (ws : List Str) (t : BusTable) :
      ∃ evicts : List Stmt, (∀ s ∈ evicts, ∃ w n, s = .evict w n) ∧
        ws.foldl (sweepWriter cap) t = evicts.foldl Stmt.exec t := by
    induction ws generalizing t with
    | nil => exact ⟨[], by simp, rfl⟩
    | cons w ws ih =>
      obtain ⟨evicts, hall, heq⟩ := ih (sweepWriter cap t w)
      rw [List.foldl_cons, heq]
      by_cases hcap : cap < (t.rows.filter fun r => r.writer == w).length
      · refine ⟨.evict w ((t.rows.filter fun r => r.writer == w).length - cap * 9 / 10) :: evicts,
          ?_, ?_⟩
        · intro s hs
          rcases List.mem_cons.mp hs with rfl | hs
          · exact ⟨w, _, rfl⟩
          · exact hall s hs
        · rw [List.foldl_cons, sweepWriter, if_pos hcap]
          rfl
      · refine ⟨evicts, hall, ?_⟩
        rw [sweepWriter, if_neg hcap]
  unfold sweepBus
  split_ifs
  · exact ⟨[], by simp, rfl⟩
  · exact hfold _ t

/-- A handler that is not interrupted runs its statement, and after a put the sweep's. -/
theorem step_statements (maxRows : ℕ) (st : Daemon) (a : Act) :
    ∃ evicts : List Stmt, (∀ s ∈ evicts, ∃ w n, s = .evict w n) ∧
      (st.step maxRows a).table = (a.stmt :: evicts).foldl Stmt.exec st.table := by
  cases a with
  | delete payload =>
    refine ⟨[], by simp, ?_⟩
    simp only [Daemon.step, Daemon.delete, Act.stmt, List.foldl_cons, List.foldl_nil, Stmt.exec]
    cases bindText (strip (Dict.text payload (txt "key"))) <;> rfl
  | put payload ifMatch now received =>
    simp only [Daemon.step, Daemon.put, Act.stmt, List.foldl_cons]
    cases hreq : putRequest payload ifMatch now received with
    | error stop =>
      rw [exec_refused hreq]
      cases stop <;> exact ⟨[], by simp, rfl⟩
    | ok p =>
      obtain ⟨row, expected⟩ := p
      rw [exec_put hreq]
      dsimp only
      cases hup : upsert st.table row expected with
      | mk t changed =>
        cases changed with
        | false =>
          rcases upsert_cases st.table row expected with ⟨hno, -⟩ | ⟨hyes, -⟩
          · rw [hup] at hno
            obtain ⟨rfl, -⟩ := Prod.mk.inj hno
            exact ⟨[], by simp, rfl⟩
          · rw [hup] at hyes
            exact absurd hyes (by simp)
        | true =>
          simp only [if_true, Daemon.accepted]
          split_ifs
          · exact sweepBus_evicts t maxRows
          · exact ⟨[], by simp, rfl⟩

/-! ### One put -/

omit [Host] in
/-- An upsert that is to match a timestamp: let through exactly by an absent key, or by a
row with that timestamp which is not above the new one's floor. -/
theorem upsert_matching (t : BusTable) (r : BusRow) (m : ℤ) :
    ((upsert t r (some m)).2 = true → (t.row? r.key).elim 0 BusRow.writerTs = m) ↔
      (t.row? r.key ≠ none ∨ m = 0) := by
  cases hrow : t.row? r.key with
  | none =>
    have hlands : (upsert t r (some m)).2 = true := by simp [upsert, hrow]
    simp only [hlands, true_imp_iff, Option.elim_none, ne_eq, not_true_eq_false, false_or]
    exact eq_comm
  | some old =>
    refine iff_of_true (fun hlands => ?_) (.inl (by simp))
    rcases upsert_cases t r (some m) with ⟨hno, -⟩ | ⟨-, -, hguard⟩
    · rw [hno] at hlands
      exact absurd hlands Bool.false_ne_true
    · exact (hguard old hrow).2 m rfl

/-- A rival that lands leaves its own timestamp, which is not the one it had to match. -/
theorem rival_lands {key : Str} {m : ℤ} {t : BusTable} {s : Stmt} (hrival : s.rival key m = true)
    (hlands : s.lands t = true) :
    (∀ old, t.row? key = some old → old.writerTs = m) ∧
      ∃ row, (s.exec t).row? key = some row ∧ row.writerTs ≠ m := by
  cases s with
  | delete payload => exact absurd hrival Bool.false_ne_true
  | evict writer n => exact absurd hrival Bool.false_ne_true
  | put payload ifMatch now received =>
    simp only [Stmt.rival, Stmt.lands, Stmt.request] at hrival hlands
    cases hreq : putRequest payload ifMatch now received with
    | error stop =>
      rw [hreq] at hrival
      exact absurd hrival Bool.false_ne_true
    | ok p =>
      obtain ⟨row, expected⟩ := p
      rw [hreq] at hrival hlands
      simp only [Except.toOption, Option.any_some, Bool.and_eq_true, beq_iff_eq, bne_iff_ne] at hrival
      obtain ⟨⟨rfl, rfl⟩, hts⟩ := hrival
      rcases upsert_cases t row (some m) with ⟨hno, -⟩ | ⟨-, hrow, hguard⟩
      · rw [Except.toOption, Option.any_some, hno] at hlands
        exact absurd hlands Bool.false_ne_true
      · rw [exec_put hreq]
        exact ⟨fun old hold => (hguard old hold).2 m rfl, row, by rw [hrow, if_pos rfl], hts⟩

/-! ### Many puts that match the same timestamp -/

/-- How many rivals land in a run of statements. -/
def wins (key : Str) (m : ℤ) : BusTable → List Stmt → ℕ
  | _, [] => 0
  | t, s :: ss => (if s.rival key m && s.lands t then 1 else 0) + wins key m (s.exec t) ss

theorem wins_cons (key : Str) (m : ℤ) (t : BusTable) (s : Stmt) (ss : List Stmt) :
    wins key m t (s :: ss) =
      (if s.rival key m && s.lands t then 1 else 0) + wins key m (s.exec t) ss := rfl

/-- Only rivals change the key. -/
def OnlyRivals (key : Str) (m : ℤ) : BusTable → List Stmt → Prop
  | _, [] => True
  | t, s :: ss =>
    ((s.exec t).row? key ≠ t.row? key → s.rival key m = true) ∧ OnlyRivals key m (s.exec t) ss

/-- A statement that does not land leaves the table, unless it removes. -/
theorem exec_of_not_lands {key : Str} {m : ℤ} {t : BusTable} {s : Stmt}
    (hrival : s.rival key m = true) (hlands : s.lands t = false) : s.exec t = t := by
  cases s with
  | delete payload => exact absurd hrival Bool.false_ne_true
  | evict writer n => exact absurd hrival Bool.false_ne_true
  | put payload ifMatch now received =>
    simp only [Stmt.lands, Stmt.request] at hlands
    cases hreq : putRequest payload ifMatch now received with
    | error stop => exact exec_refused hreq t
    | ok p =>
      obtain ⟨row, expected⟩ := p
      rw [hreq, Except.toOption, Option.any_some] at hlands
      rcases upsert_cases t row expected with ⟨hno, -⟩ | ⟨hyes, -⟩
      · rw [exec_put hreq, hno]
      · rw [hyes] at hlands
        exact absurd hlands Bool.true_eq_false.mp

/-- Once the key holds another timestamp, no rival lands. -/
theorem wins_zero {key : Str} {m : ℤ} {ss : List Stmt} {t : BusTable} {row : BusRow}
    (hrow : t.row? key = some row) (hts : row.writerTs ≠ m) (h : OnlyRivals key m t ss) :
    wins key m t ss = 0 := by
  induction ss generalizing t with
  | nil => rfl
  | cons s ss ih =>
    have hlose : (s.rival key m && s.lands t) = false := by
      by_contra hwin
      rw [Bool.not_eq_false, Bool.and_eq_true] at hwin
      exact hts ((rival_lands hwin.1 hwin.2).1 row hrow)
    have hsame : (s.exec t).row? key = t.row? key := by
      by_contra hchange
      have hrival := h.1 hchange
      rw [hrival, Bool.true_and] at hlose
      exact hchange (by rw [exec_of_not_lands hrival hlose])
    rw [wins_cons, hlose, ih (hsame.trans hrow) h.2]
    rfl

theorem wins_le_one {key : Str} {m : ℤ} {ss : List Stmt} {t : BusTable}
    (h : OnlyRivals key m t ss) : wins key m t ss ≤ 1 := by
  induction ss generalizing t with
  | nil => exact Nat.zero_le 1
  | cons s ss ih =>
    rw [wins_cons]
    cases hwin : (s.rival key m && s.lands t) with
    | false =>
      have hrest := ih h.2
      simpa using hrest
    | true =>
      rw [Bool.and_eq_true] at hwin
      obtain ⟨row, hrow, hts⟩ := (rival_lands hwin.1 hwin.2).2
      rw [wins_zero hrow hts h.2]
      exact Nat.le_refl 1

/-- A put with a timestamp to match lands on that timestamp only, exactly when the key is
stored or the timestamp is 0; and of the puts to match one timestamp at most one lands, as
long as nothing else changes the key. -/
theorem if_match_guards (key : Str) (t : BusTable) (stmts : List Stmt) :
    (∀ pre s row m, pre ++ [s] <+: stmts → s.request = some (row, some m) → row.key = key →
      ((s.lands (pre.foldl Stmt.exec t) = true →
          ((pre.foldl Stmt.exec t).row? key).elim 0 BusRow.writerTs = m) ↔
        ((pre.foldl Stmt.exec t).row? key ≠ none ∨ m = 0))) ∧
    ∀ m, OnlyRivals key m t stmts → wins key m t stmts ≤ 1 := by
  refine ⟨fun pre s row m _ hreq hkey => ?_, fun m h => wins_le_one h⟩
  subst hkey
  have hlands : s.lands (pre.foldl Stmt.exec t) =
      (upsert (pre.foldl Stmt.exec t) row (some m)).2 := by
    rw [Stmt.lands, hreq, Option.any_some]
  rw [hlands]
  exact upsert_matching _ row m

/-! ### A deletion in between -/

/-- A stamped put that is to match a timestamp. -/
def matchingPut (ts : ℕ) (m : Str) : Stmt := .put (stampedPut ts) (some m) (120 * 1000000000) 0

theorem request_matching {ts : ℕ} (hts : ts ≤ 120 * 1000000000) {m : Str} {n : ℤ}
    (hm : Host.intText (strip m) = some n) (hn : bindInt n = .ok ()) :
    (matchingPut ts m).request = some (stampedRow ts, some n) := by
  have hmatch : matchTs (some m) = .ok (some n) := by rw [matchTs, hm]
  have hreq := putRequest_stamped (120 * 1000000000) (by omega : ts < 2 ^ 63) (by omega) hmatch hn
  rw [matchingPut, Stmt.request, hreq]
  rfl

end

theorem if_match_guards_new :
    letI := Host.ascii
    (matchingPut 5 (txt "0")).lands .empty = true →
      ((BusTable.empty).row? (txt "k")).elim 0 BusRow.writerTs = 0 := by
  let _ := Host.ascii
  have hreq : (matchingPut 5 (txt "0")).request = some (stampedRow 5, some 0) :=
    request_matching (by omega) (by decide) (by decide)
  exact ((if_match_guards (txt "k") .empty [matchingPut 5 (txt "0")]).1 [] _ _ 0
    (List.prefix_refl _) hreq rfl).mpr (.inr rfl)

/-- A client reads the key at timestamp 5, another deletes it, and the put that is to
match 5 lands on the absent key. -/
theorem absent_key_matches :
    letI := Host.ascii
    (stampedRow 5).writerTs = 5 ∧
      (Stmt.exec (BusTable.empty.insert (stampedRow 5) rfl)
        (.delete [(txt "key", .str (txt "k"))])).row? (txt "k") = none ∧
      (matchingPut 7 (txt "5")).request = some (stampedRow 7, some 5) ∧
      (matchingPut 7 (txt "5")).lands (Stmt.exec (BusTable.empty.insert (stampedRow 5) rfl)
        (.delete [(txt "key", .str (txt "k"))])) = true := by
  let _ := Host.ascii
  have hreq : (matchingPut 7 (txt "5")).request = some (stampedRow 7, some 5) :=
    request_matching (by omega) (by decide) (by decide)
  have hgone : (Stmt.exec (BusTable.empty.insert (stampedRow 5) rfl)
      (.delete [(txt "key", .str (txt "k"))])).row? (txt "k") = none := by
    have hkey : strip (Dict.text [(txt "key", .str (txt "k"))] (txt "key")) = txt "k" := by rfl
    have hbind : bindText (txt "k") = .ok () := by decide
    rw [Stmt.exec, hkey]
    simp only [hbind, BusTable.row?_remove, beq_self_eq_true, if_true]
  refine ⟨rfl, hgone, hreq, ?_⟩
  have hrow : (Stmt.exec (BusTable.empty.insert (stampedRow 5) rfl)
      (.delete [(txt "key", .str (txt "k"))])).row? (stampedRow 7).key = none := hgone
  rw [Stmt.lands, hreq, Option.any_some, upsert, dif_pos hrow]

end AskFable.Bus

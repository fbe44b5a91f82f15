import AskFable.Bus.Reader
import AskFable.General.Machine
import Mathlib.Data.List.MinMax

/-!
# Guard calls side by side

Any number of `check` and `record` calls work on one guard store. Each statement is atomic,
but between the statements of one call others may run, and every statement may fail. The mark
of a key only rises, and a check that returns has seen it after every bump that ended before.
-/
namespace AskFable.Bus
open AskFable.Text AskFable.Python

inductive GuardKind
  | check
  | record
  deriving DecidableEq

structure GuardCall where
  kind : GuardKind
  guard : Guard
  key : Str
  ts : ℤ

/-- The statement a call has before it, or how its `try` block ended. -/
inductive CallStage
  | opening
  | reading
  | writing
  | ended (result : Except HwmError Unit)

structure Running where
  call : GuardCall
  stage : CallStage

/-- The guard store and the calls that have begun. -/
structure Readers where
  marks : Marks
  calls : ℕ → Option Running

/-- A new call begins, or one goes on with its next statement, which fails with the text of an
exception or does not. -/
inductive CallMove
  | start (id : ℕ) (c : GuardCall)
  | go (id : ℕ) (fault : Option Str)

def HwmError.ofText (exc : Str) : HwmError :=
  .unavailable (txt "rollback guard store failed: " ++ exc)

def GuardCall.begin (c : GuardCall) : CallStage :=
  if c.guard.enabled then .opening else .ended (.ok ())

/-- `_connect`, the `SELECT` and the comparison of `check`, and `_bump`. -/
def GuardCall.statement (c : GuardCall) (m : Marks) : CallStage → Option Str → Marks × CallStage
  | .opening, some _ =>
    (m, .ended (.error (.unavailable (txt "rollback guard store unavailable: " ++ c.guard.path))))
  | .opening, none =>
    match c.kind with
    | .check => (m, .reading)
    | .record => (m, .writing)
  | .reading, some exc => (m, .ended (.error (.ofText exc)))
  | .reading, none =>
    match bindText c.key with
    | .error f => (m, .ended (.error (.failed f)))
    | .ok _ =>
      if stale m c.key c.ts then
        (m, .ended (.error (.rollback (rollbackText c.key c.ts ((m c.key).getD 0)))))
      else (m, .writing)
  | .writing, some exc => (m, .ended (.error (.ofText exc)))
  | .writing, none =>
    match bindText c.key, bindInt c.ts with
    | .error f, _ => (m, .ended (.error (.failed f)))
    | .ok _, .error f => (m, .ended (.error (.failed f)))
    | .ok _, .ok _ => (bump m c.key c.ts, .ended (.ok ()))
  | .ended result, _ => (m, .ended result)

/-- `record` prints what `check` raises. -/
def GuardCall.returns (c : GuardCall) (result : Except HwmError Unit) : Bool :=
  match c.kind, result with
  | .record, _ => true
  | .check, .ok _ => true
  | .check, .error _ => false

namespace Readers

/-- Before the first call. -/
def idle (m : Marks) : Readers := ⟨m, fun _ => none⟩

def step (w : Readers) : CallMove → Readers
  | .start id c =>
    match w.calls id with
    | none => { w with calls := Function.update w.calls id (some ⟨c, c.begin⟩) }
    | some _ => w
  | .go id fault =>
    match w.calls id with
    | none => w
    | some r =>
      let (marks, stage) := r.call.statement w.marks r.stage fault
      ⟨marks, Function.update w.calls id (some ⟨r.call, stage⟩)⟩

def run (w : Readers) (moves : List CallMove) : Readers := moves.foldl step w

/-- A call whose bump this move is: its key and timestamp. -/
def bumped (w : Readers) : CallMove → Option (Str × ℤ)
  | .start _ _ => none
  | .go id fault =>
    (w.calls id).bind fun r =>
      match r.stage, (r.call.statement w.marks r.stage fault).2 with
      | .writing, .ended (.ok _) => some (r.call.key, r.call.ts)
      | _, _ => none

/-- The timestamps of all bumps of a key in a run. -/
def bumps (w : Readers) (key : Str) (moves : List CallMove) : List ℤ :=
  ((Machine.observed step bumped w moves).filter fun b => b.1 = key).map Prod.snd

/-- A call with an enabled guard has bumped its mark. -/
def Accepted (w : Readers) (id : ℕ) (c : GuardCall) : Prop :=
  w.calls id = some ⟨c, .ended (.ok ())⟩ ∧ c.guard.enabled = true

/-- A call has come back to its caller. -/
def Returned (w : Readers) (id : ℕ) (c : GuardCall) : Prop :=
  ∃ result, w.calls id = some ⟨c, .ended result⟩ ∧ c.returns result = true

end Readers

/-! ### One statement -/

theorem bump_same (m : Marks) (key : Str) (ts : ℤ) :
    bump m key ts key = some ((m key).elim ts (max ts)) := by simp [bump]

theorem bump_of_ne (m : Marks) {key key' : Str} (h : key' ≠ key) (ts : ℤ) :
    bump m key ts key' = m key' := by simp [bump, h]

/-- A statement that has run leads to the next one, or ends the call: a bump well, all others
with an error. -/
theorem GuardCall.statement_cases (c : GuardCall) (m : Marks) {stage : CallStage}
    (fault : Option Str) (h : ∀ result, stage ≠ .ended result) :
    (∃ e, c.statement m stage fault = (m, .ended (.error e))) ∨
      (fault = none ∧
        ((stage = .opening ∧ c.kind = .check ∧ c.statement m stage fault = (m, .reading)) ∨
          (stage = .opening ∧ c.kind = .record ∧ c.statement m stage fault = (m, .writing)) ∨
          (stage = .reading ∧ stale m c.key c.ts = false ∧
            c.statement m stage fault = (m, .writing)) ∨
          (stage = .writing ∧ bindText c.key = .ok () ∧ bindInt c.ts = .ok () ∧
            c.statement m stage fault = (bump m c.key c.ts, .ended (.ok ()))))) := by
  cases stage with
  | ended result => exact absurd rfl (h result)
  | opening =>
    cases fault with
    | some exc => exact .inl ⟨_, rfl⟩
    | none => cases hk : c.kind <;> simp [statement, hk]
  | reading =>
    cases fault with
    | some exc => exact .inl ⟨_, rfl⟩
    | none =>
      cases ht : bindText c.key with
      | error f => exact .inl ⟨.failed f, by simp [statement, ht]⟩
      | ok _ => cases hs : stale m c.key c.ts <;> simp [statement, ht, hs]
  | writing =>
    cases fault with
    | some exc => exact .inl ⟨_, rfl⟩
    | none =>
      cases ht : bindText c.key with
      | error f => exact .inl ⟨.failed f, by simp [statement, ht]⟩
      | ok _ =>
        cases hi : bindInt c.ts with
        | error f => exact .inl ⟨.failed f, by simp [statement, ht, hi]⟩
        | ok _ => simp [statement, ht, hi]

/-! ### One move -/

/-- No mark of `m` is lost or lowered in `m'`. -/
def Rises (m m' : Marks) : Prop := ∀ key a, m key = some a → ∃ b, m' key = some b ∧ a ≤ b

theorem Rises.refl (m : Marks) : Rises m m := fun _ a h => ⟨a, h, le_rfl⟩

theorem Rises.trans {m m' m'' : Marks} (h : Rises m m') (h' : Rises m' m'') : Rises m m'' := by
  intro key a ha
  obtain ⟨b, hb, hab⟩ := h key a ha
  obtain ⟨c, hc, hbc⟩ := h' key b hb
  exact ⟨c, hc, hab.trans hbc⟩

theorem rises_bump (m : Marks) (key : Str) (ts : ℤ) : Rises m (bump m key ts) := by
  intro key' a ha
  by_cases hk : key' = key
  · subst hk
    rw [bump_same, ha]
    exact ⟨_, rfl, le_max_right _ _⟩
  · rw [bump_of_ne m hk]
    exact ⟨a, ha, le_rfl⟩

/-- Undisturbed, the statements of a check make up `check`. -/
theorem statements_alone (g : Guard) (hon : g.enabled = true) (m : Marks) (key : Str) (ts : ℤ) :
    let c : GuardCall := ⟨.check, g, key, ts⟩
    let opened := c.statement m c.begin none
    let read := c.statement opened.1 opened.2 none
    let written := c.statement read.1 read.2 none
    ∃ result, written.2 = .ended result ∧ check g (some m) key ts = (some written.1, result) := by
  simp only [GuardCall.begin, if_pos hon, check, GuardCall.statement]
  cases ht : bindText key with
  | error f => exact ⟨.error (.failed f), by simp, by simp⟩
  | ok _ =>
    cases hs : stale m key ts with
    | true =>
      exact ⟨.error (.rollback (rollbackText key ts ((m key).getD 0))), by simp, by simp⟩
    | false =>
      cases hi : bindInt ts with
      | error f => exact ⟨.error (.failed f), by simp, by simp⟩
      | ok _ => exact ⟨.ok (), by simp, by simp⟩

namespace Readers

/-- What a move does to a call. -/
theorem calls_step (w : Readers) (move : CallMove) (id : ℕ) :
    (w.step move).calls id = w.calls id ∨
      (∃ c, move = .start id c ∧ w.calls id = none ∧
        (w.step move).calls id = some ⟨c, c.begin⟩) ∨
      ∃ fault r, move = .go id fault ∧ w.calls id = some r ∧
        (w.step move).calls id =
          some ⟨r.call, (r.call.statement w.marks r.stage fault).2⟩ ∧
        (w.step move).marks = (r.call.statement w.marks r.stage fault).1 := by
  cases move with
  | start other c =>
    cases ho : w.calls other with
    | some r => exact .inl (by simp [step, ho])
    | none =>
      by_cases hid : id = other
      · subst hid
        exact .inr (.inl ⟨c, rfl, ho, by simp [step, ho]⟩)
      · exact .inl (by simp [step, ho, hid])
  | go other fault =>
    cases ho : w.calls other with
    | none => exact .inl (by simp [step, ho])
    | some r =>
      by_cases hid : id = other
      · subst hid
        exact .inr (.inr ⟨fault, r, rfl, ho, by simp [step, ho], by simp [step, ho]⟩)
      · exact .inl (by simp [step, ho, hid])

/-- A move leaves the marks, or is a bump. -/
theorem marks_step (w : Readers) (move : CallMove) :
    ((w.step move).marks = w.marks ∧ w.bumped move = none) ∨
      ∃ key ts, w.bumped move = some (key, ts) ∧ (w.step move).marks = bump w.marks key ts := by
  cases move with
  | start id c =>
    refine .inl ⟨?_, rfl⟩
    cases hid : w.calls id <;> simp [step, hid]
  | go id fault =>
    cases hid : w.calls id with
    | none => exact .inl ⟨by simp [step, hid], by simp [bumped, hid]⟩
    | some r =>
      by_cases hended : ∃ result, r.stage = .ended result
      · obtain ⟨result, hresult⟩ := hended
        have hkeep : r.call.statement w.marks (.ended result) fault = (w.marks, .ended result) := by
          cases fault <;> rfl
        exact .inl ⟨by simp [step, hid, hresult, hkeep], by simp [bumped, hid, hresult]⟩
      · rcases r.call.statement_cases w.marks fault (not_exists.mp hended) with
          ⟨e, he⟩ | ⟨-, hcases⟩
        · exact .inl ⟨by simp [step, hid, he], by simp [bumped, hid, he]⟩
        · rcases hcases with ⟨-, -, hs⟩ | ⟨-, -, hs⟩ | ⟨-, -, hs⟩ | ⟨hstage, -, -, hs⟩
          · exact .inl ⟨by simp [step, hid, hs], by simp [bumped, hid, hs]⟩
          · exact .inl ⟨by simp [step, hid, hs], by simp [bumped, hid, hs]⟩
          · exact .inl ⟨by simp [step, hid, hs], by simp [bumped, hid, hs]⟩
          · refine .inr ⟨r.call.key, r.call.ts, ?_, by simp [step, hid, hs]⟩
            rw [hstage] at hs
            simp [bumped, hid, hs, hstage]

theorem rises_step (w : Readers) (move : CallMove) : Rises w.marks (w.step move).marks := by
  rcases w.marks_step move with ⟨hmarks, -⟩ | ⟨key, ts, -, hmarks⟩
  · rw [hmarks]
    exact .refl _
  · rw [hmarks]
    exact rises_bump _ _ _

/-- A call that has ended stays as it is. -/
theorem ended_step {w : Readers} {id : ℕ} {c : GuardCall} {result : Except HwmError Unit}
    (h : w.calls id = some ⟨c, .ended result⟩) (move : CallMove) :
    (w.step move).calls id = some ⟨c, .ended result⟩ := by
  rcases w.calls_step move id with hsame | ⟨c', -, hnone, -⟩ | ⟨fault, r, -, hr, hnext, -⟩
  · rw [hsame, h]
  · rw [h] at hnone
    nomatch hnone
  · rw [h] at hr
    obtain rfl := Option.some.inj hr
    rw [hnext]
    cases fault <;> rfl

/-! ### Whole runs -/

theorem rises_run (w : Readers) (moves : List CallMove) : Rises w.marks (w.run moves).marks :=
  Machine.foldl_invariant step (I := fun w' => Rises w.marks w'.marks)
    (fun w' move h => h.trans (w'.rises_step move)) (.refl _) moves

theorem ended_run {w : Readers} {id : ℕ} {c : GuardCall} {result : Except HwmError Unit}
    (h : w.calls id = some ⟨c, .ended result⟩) (moves : List CallMove) :
    (w.run moves).calls id = some ⟨c, .ended result⟩ :=
  Machine.foldl_invariant step (I := fun w' => w'.calls id = some ⟨c, .ended result⟩)
    (fun _ move h => ended_step h move) h moves

theorem bumps_cons (w : Readers) (key : Str) (move : CallMove) (moves : List CallMove) :
    w.bumps key (move :: moves) =
      (((w.bumped move).toList.filter fun b => b.1 = key).map Prod.snd) ++
        (w.step move).bumps key moves := by
  rw [bumps, Machine.observed, List.filter_append, List.map_append]
  rfl

/-- The mark of a key is the largest of the one it had and of all that were bumped. -/
theorem marks_run (w : Readers) (key : Str) (moves : List CallMove) :
    (w.run moves).marks key = ((w.marks key).toList ++ w.bumps key moves).max? := by
  induction moves generalizing w with
  | nil => cases h : w.marks key <;> simp [run, bumps, Machine.observed, h]
  | cons move moves ih =>
    rw [show w.run (move :: moves) = (w.step move).run moves from rfl, ih, bumps_cons]
    rcases w.marks_step move with ⟨hmarks, hnone⟩ | ⟨key', ts, hbumped, hmarks⟩
    · simp [hmarks, hnone]
    · rw [hmarks, hbumped]
      by_cases hk : key = key'
      · subst hk
        rw [bump_same]
        cases w.marks key with
        | none => simp
        | some a =>
          cases hmax : ((w.step move).bumps key moves).max? with
          | none => simp [List.max?_cons, hmax, max_comm]
          | some b => simp [List.max?_cons, hmax, max_left_comm, max_assoc]
      · rw [bump_of_ne _ hk]
        simp [Ne.symm hk]

/-- Every accepted timestamp is covered by its key's mark. -/
def Covers (w : Readers) : Prop :=
  ∀ id c, w.Accepted id c → ∃ a, w.marks c.key = some a ∧ c.ts ≤ a

theorem covers_step {w : Readers} (h : w.Covers) (move : CallMove) : (w.step move).Covers := by
  rintro id c ⟨hcall, hon⟩
  have hkept (haccepted : w.Accepted id c) :
      ∃ a, (w.step move).marks c.key = some a ∧ c.ts ≤ a := by
    obtain ⟨a, ha, hle⟩ := h id c haccepted
    obtain ⟨b, hb, hab⟩ := w.rises_step move c.key a ha
    exact ⟨b, hb, hle.trans hab⟩
  rcases w.calls_step move id with hsame | ⟨c', -, -, hbegun⟩ | ⟨fault, r, -, hr, hnext, hmarks⟩
  · exact hkept ⟨hsame ▸ hcall, hon⟩
  · rw [hbegun] at hcall
    obtain ⟨rfl, hstage⟩ := Running.mk.inj (Option.some.inj hcall)
    rw [GuardCall.begin, if_pos hon] at hstage
    nomatch hstage
  · rw [hnext] at hcall
    obtain ⟨rfl, hstage⟩ := Running.mk.inj (Option.some.inj hcall)
    by_cases hended : ∃ result, r.stage = .ended result
    · obtain ⟨result, hresult⟩ := hended
      refine hkept ⟨?_, hon⟩
      rw [hr, ← hstage, hresult]
      cases r
      cases fault <;> simp_all [GuardCall.statement]
    · rcases r.call.statement_cases w.marks fault (not_exists.mp hended) with
        ⟨e, he⟩ | ⟨-, ⟨-, -, hs⟩ | ⟨-, -, hs⟩ | ⟨-, -, hs⟩ | ⟨-, -, -, hs⟩⟩
      · rw [he] at hstage
        nomatch hstage
      · rw [hs] at hstage
        nomatch hstage
      · rw [hs] at hstage
        nomatch hstage
      · rw [hs] at hstage
        nomatch hstage
      · rw [hmarks, hs]
        refine ⟨_, bump_same _ _ _, ?_⟩
        cases w.marks r.call.key with
        | none => exact le_rfl
        | some a => exact le_max_left _ _

/-- A check that began at the marks `m` and has passed the comparison, or may not pass it. -/
def Held (m : Marks) (id : ℕ) (c : GuardCall) (w : Readers) : Prop :=
  Rises m w.marks ∧ ∃ stage, w.calls id = some ⟨c, stage⟩ ∧
    (stage = .writing ∨ stage = .ended (.ok ()) → ∀ a, m c.key = some a → a - SLACK_NS ≤ c.ts)

theorem held_step {m : Marks} {id : ℕ} {c : GuardCall} (hkind : c.kind = .check) {w : Readers}
    (h : Held m id c w) (move : CallMove) : Held m id c (w.step move) := by
  obtain ⟨hrises, stage, hcall, hpassed⟩ := h
  refine ⟨hrises.trans (w.rises_step move), ?_⟩
  rcases w.calls_step move id with hsame | ⟨c', -, hnone, -⟩ | ⟨fault, r, -, hr, hnext, -⟩
  · exact ⟨stage, hsame.trans hcall, hpassed⟩
  · rw [hcall] at hnone
    nomatch hnone
  · rw [hcall] at hr
    obtain rfl := Option.some.inj hr
    refine ⟨_, hnext, ?_⟩
    by_cases hended : ∃ result, stage = .ended result
    · obtain ⟨result, rfl⟩ := hended
      cases fault <;> exact hpassed
    · rcases c.statement_cases w.marks fault (not_exists.mp hended) with
        ⟨e, he⟩ | ⟨-, ⟨-, -, hs⟩ | ⟨-, hrecord, -⟩ | ⟨-, hfresh, hs⟩ | ⟨hwriting, -, -, hs⟩⟩
      · simp [he]
      · simp [hs]
      · rw [hkind] at hrecord
        nomatch hrecord
      · -- the mark that was read is no lower than the one the check began at
        intro _ a ha
        obtain ⟨b, hb, hab⟩ := hrises c.key a ha
        have hnot : ¬c.ts < b - SLACK_NS := by simpa [stale, hb] using hfresh
        omega
      · exact fun _ => hpassed (.inl hwriting)

/-- A statement that fails ends its call with an error. -/
theorem failed_step {w : Readers} {id : ℕ} {c : GuardCall} {stage : CallStage}
    (hcall : w.calls id = some ⟨c, stage⟩) (hstage : ∀ result, stage ≠ .ended result)
    (exc : Str) : ∃ e, (w.step (.go id (some exc))).calls id = some ⟨c, .ended (.error e)⟩ := by
  rcases c.statement_cases w.marks (some exc) hstage with ⟨e, he⟩ | ⟨hnone, -⟩
  · exact ⟨e, by simp [step, hcall, he]⟩
  · nomatch hnone

end Readers

open Readers

/-- In every interleaving on a store, with any statement failing: the marks rise; the mark of a
key is the largest timestamp bumped; a check that returned is within the slack of every check
and record that had bumped the mark and ended before it began; a failing statement makes a check
raise. -/
theorem guard_interleaved (m : Marks) (moves : List CallMove) :
    (∀ pre post, moves = pre ++ post → Rises ((idle m).run pre).marks ((idle m).run moves).marks) ∧
      (∀ key, ((idle m).run moves).marks key =
        ((m key).toList ++ (idle m).bumps key moves).max?) ∧
      (∀ pre post id c, moves = pre ++ .start id c :: post → c.kind = .check →
        c.guard.enabled = true → ((idle m).run pre).calls id = none →
        Returned ((idle m).run moves) id c →
        ∀ other d, Accepted ((idle m).run pre) other d → d.key = c.key →
          d.ts - SLACK_NS ≤ c.ts) ∧
      ∀ pre post id c stage exc, moves = pre ++ .go id (some exc) :: post → c.kind = .check →
        ((idle m).run pre).calls id = some ⟨c, stage⟩ → (∀ result, stage ≠ .ended result) →
        (∃ e, ((idle m).run moves).calls id = some ⟨c, .ended (.error e)⟩) ∧
          ¬Returned ((idle m).run moves) id c := by
  have happend (pre post : List CallMove) :
      (idle m).run (pre ++ post) = ((idle m).run pre).run post := List.foldl_append ..
  have hcovers (pre : List CallMove) : ((idle m).run pre).Covers :=
    Machine.foldl_invariant step (I := Covers) (fun _ move h => covers_step h move)
      (fun _ _ h => absurd h.1 (by simp [idle])) pre
  refine ⟨?_, fun key => marks_run _ _ _, ?_, ?_⟩
  · rintro pre post rfl
    rw [happend]
    exact rises_run _ _
  · rintro pre post id c rfl hkind hon hfresh ⟨result, hcall, hreturns⟩ other d haccepted hkey
    obtain ⟨a, ha, hle⟩ := hcovers pre other d haccepted
    have hbegun : Held ((idle m).run pre).marks id c (((idle m).run pre).step (.start id c)) := by
      refine ⟨rises_step _ _, .opening, ?_, fun h => by rcases h with h | h <;> nomatch h⟩
      simp [step, hfresh, GuardCall.begin, hon]
    have hheld := Machine.foldl_invariant step (I := Held ((idle m).run pre).marks id c)
      (fun _ move h => held_step hkind h move) hbegun post
    obtain ⟨-, stage, hstage, hpassed⟩ := hheld
    rw [happend] at hcall
    have hended : stage = .ended result :=
      (Running.mk.inj (Option.some.inj (hstage.symm.trans hcall))).2
    cases result with
    | error e => simp [GuardCall.returns, hkind] at hreturns
    | ok _ =>
      have := hpassed (.inr hended) a (hkey ▸ ha)
      omega
  · rintro pre post id c stage exc rfl hkind hcall hstage
    obtain ⟨e, he⟩ := failed_step hcall hstage exc
    have hlast := ended_run he post
    rw [happend]
    refine ⟨⟨e, hlast⟩, ?_⟩
    rintro ⟨result, hcall', hreturns⟩
    have hresult : (⟨c, .ended (.error e)⟩ : Running) = ⟨c, .ended result⟩ :=
      Option.some.inj (hlast.symm.trans hcall')
    obtain rfl : Except.error e = result := CallStage.ended.inj (Running.mk.inj hresult).2
    simp [GuardCall.returns, hkind] at hreturns

/-- A record at a hundred seconds, and a check at zero. -/
def lateRecord : GuardCall := ⟨.record, ⟨true, []⟩, txt "k", 100 * 1000000000⟩
def earlyCheck : GuardCall := ⟨.check, ⟨true, []⟩, txt "k", 0⟩

/-- A record whose bump failed has returned all the same, and binds no check after it. -/
theorem record_unheeded :
    let recorded := [.start 0 lateRecord, .go 0 none, .go 0 (some (txt "disk I/O error"))]
    let checked := [.start 1 earlyCheck, .go 1 none, .go 1 none, .go 1 none]
    Returned ((idle fun _ => none).run recorded) 0 lateRecord ∧
      ((idle fun _ => none).run recorded).calls 1 = none ∧
      Returned ((idle fun _ => none).run (recorded ++ checked)) 1 earlyCheck ∧
      lateRecord.key = earlyCheck.key ∧ earlyCheck.ts < lateRecord.ts - SLACK_NS := by
  refine ⟨⟨_, rfl, rfl⟩, rfl, ⟨.ok (), rfl, rfl⟩, rfl, by decide⟩

end AskFable.Bus

import AskFable.Ask.Loop
import AskFable.General.Machine

/-!
# Conversations do not fork

What a turn resumes and how long it has been blocked is read off the history of its label
alone. While a task holds the lock of a key nothing else happens to the conversation, so
each recorded turn continues the call it belongs to.
-/
namespace AskFable.Ask
open AskFable.Text AskFable.Python AskFable.Debate AskFable.Extract

/-! ### What a history says about a label -/

/-- The resume id an event leaves a label with. -/
def Event.idOf (s : Slot) : Event → Option (Option Str)
  | .reset t | .forgot t => if t.slot = s then some none else none
  | .recorded t (some id) _ => if t.slot = s ∧ id ≠ [] then some (some id) else none
  | _ => none

/-- The last id recorded under the label since it was last reset or forgotten. -/
def lastId (log : List Event) (s : Slot) : Option Str := (log.findSome? (Event.idOf s)).join

/-- Whether an event of the label is a blocked turn; a reset is none. -/
def Event.blockedOf (s : Slot) : Event → Option Bool
  | .reset t => if t.slot = s then some false else none
  | .recorded t _ blocked => if t.slot = s then some blocked else none
  | _ => none

/-- The number of blocked turns the history of the label ends with. -/
def trailingRun (log : List Event) (s : Slot) : ℕ :=
  ((log.filterMap (Event.blockedOf s)).takeWhile (· = true)).length

/-- The task was called, and nothing has happened to its conversation since. -/
def Pending (log : List Event) (t : Task) : Prop :=
  ∃ mid r pre, log = mid ++ .called t r :: pre ∧ ∀ e ∈ mid, e.slot ≠ t.slot

/-- An event goes with the history before it. -/
def Event.Fits (log : List Event) : Event → Prop
  | .called t r => r = lastId log t.slot
  | .recorded t _ _ => Pending log t
  | _ => True

/-- Every event goes with what came before. -/
def Told : List Event → Prop
  | [] => True
  | e :: log => e.Fits log ∧ Told log

theorem Told.fits {post pre : List Event} {e : Event} (h : Told (post ++ e :: pre)) : e.Fits pre := by
  induction post with
  | nil => exact h.1
  | cons _ _ ih => exact ih h.2

theorem Pending.cons {log : List Event} {t : Task} {e : Event} (h : Pending log t)
    (hne : t.slot ≠ e.slot) : Pending (e :: log) t := by
  obtain ⟨mid, r, pre, rfl, hmid⟩ := h
  exact ⟨e :: mid, r, pre, rfl, List.forall_mem_cons.mpr ⟨hne.symm, hmid⟩⟩

theorem lastId_cons (e : Event) (log : List Event) (s : Slot) :
    lastId (e :: log) s = (e.idOf s).elim (lastId log s) id := by
  rw [lastId, List.findSome?_cons]
  cases e.idOf s <;> rfl

theorem trailingRun_cons (e : Event) (log : List Event) (s : Slot) :
    trailingRun (e :: log) s =
      (e.blockedOf s).elim (trailingRun log s) fun b => if b then trailingRun log s + 1 else 0 := by
  rw [trailingRun, List.filterMap_cons]
  cases e.blockedOf s with
  | none => rfl
  | some b => cases b <;> simp [trailingRun]

theorem cons_of_ne {e : Event} {s : Slot} (h : s ≠ e.slot) (log : List Event) :
    lastId (e :: log) s = lastId log s ∧ trailingRun (e :: log) s = trailingRun log s := by
  have hne : ¬e.slot = s := fun heq => h heq.symm
  rw [lastId_cons, trailingRun_cons]
  cases e with
  | recorded t sid b =>
    cases sid <;> simp_all [Event.idOf, Event.blockedOf, Event.slot, Event.task]
  | _ => simp_all [Event.idOf, Event.blockedOf, Event.slot, Event.task]

/-- What is resumed was recorded under the same label. -/
theorem recorded_of_lastId {log : List Event} {s : Slot} {id : Str} (h : lastId log s = some id) :
    ∃ t blocked, .recorded t (some id) blocked ∈ log ∧ t.slot = s := by
  obtain ⟨e, he, hid⟩ := List.exists_of_findSome?_eq_some (Option.join_eq_some_iff.mp h)
  cases e with
  | recorded t sid b =>
    cases sid with
    | none => simp [Event.idOf] at hid
    | some id' =>
      simp only [Event.idOf, Option.ite_none_right_eq_some, Option.some.injEq] at hid
      obtain ⟨⟨hslot, -⟩, rfl⟩ := hid
      exact ⟨t, b, he, hslot⟩
  | _ => simp [Event.idOf] at hid

/-! ### The invariant -/

/-- The store holds what the history says, and the history goes together. -/
structure Kept (store : SessionStore) (log : List Event) : Prop where
  view : ∀ s, sessionLabelError s = false →
    store.view (sessionKey s) = (lastId log s, trailingRun log s)
  told : Told log

theorem Kept.add {store store' : SessionStore} {log : List Event} (h : Kept store log) {e : Event}
    (haccepted : sessionLabelError e.slot = false) (hfits : e.Fits log)
    (hview : store'.view (sessionKey e.slot) =
      (lastId (e :: log) e.slot, trailingRun (e :: log) e.slot))
    (hothers : ∀ key, key ≠ sessionKey e.slot → store'.view key = store.view key) :
    Kept store' (e :: log) := by
  refine ⟨fun s hs => ?_, hfits, h.told⟩
  by_cases hslot : s = e.slot
  · rw [hslot, hview]
  · have hkey : sessionKey s ≠ sessionKey e.slot := fun hkey =>
      hslot (sessionKey_inj hs haccepted hkey)
    rw [hothers _ hkey, h.view s hs, (cons_of_ne hslot log).1, (cons_of_ne hslot log).2]

/-- The locks are sound, and each is kept under the key of the task that refers to it. -/
structure Locked (locks : WeakLock.Table Str Task) : Prop where
  sound : locks.Sound
  keyed : ∀ r ∈ locks.refs,
    r.key = sessionKey r.task.slot ∧ sessionLabelError r.task.slot = false

/-- Between two steps. -/
structure Inv (w : World) : Prop where
  locked : Locked w.locks
  kept : Kept w.store w.log
  pending : ∀ t, w.locks.Holds t → Pending w.log t

/-- While a task has the turn, no other task of its conversation holds a lock. -/
structure HasTurn (w : World) (t : Task) : Prop where
  locked : Locked w.locks
  kept : Kept w.store w.log
  accepted : sessionLabelError t.slot = false
  others : ∀ u, w.locks.Holds u → u ≠ t → Pending w.log u ∧ u.slot ≠ t.slot

section
variable {w : World} {t : Task}

/-- A task has the turn once no other holds the lock it refers to. -/
theorem Inv.hasTurn (h : Inv w) {r : WeakLock.Ref Str Task} (hr : r ∈ w.locks.refs)
    (hfree : ∀ u, w.locks.holder r.lock = some u → u = r.task) : HasTurn w r.task := by
  refine ⟨h.locked, h.kept, (h.locked.keyed r hr).2, fun u hu hne => ⟨h.pending u hu, fun hslot => ?_⟩⟩
  obtain ⟨r', hr', rfl, hholder⟩ := hu
  have hkey : r'.key = r.key := by
    rw [(h.locked.keyed r hr).1, (h.locked.keyed r' hr').1, hslot]
  rw [h.locked.sound.lock_eq hr' hr hkey] at hholder
  exact hne (hfree r'.task hholder)

theorem Inv.hasTurn_of_grantable (h : Inv w) (ht : w.locks.grantable t = true) : HasTurn w t := by
  obtain ⟨r, hr, rfl, hfree⟩ := WeakLock.Table.grantable_spec ht
  exact h.hasTurn hr (by simp [hfree])

theorem Inv.hasTurn_of_holds (h : Inv w) (ht : w.locks.Holds t) : HasTurn w t := by
  obtain ⟨r, hr, rfl, hholder⟩ := ht
  refine h.hasTurn hr fun u hu => ?_
  rw [hholder] at hu
  exact (Option.some.inj hu).symm

/-- What a task with the turn does to its conversation leaves it the turn. -/
theorem HasTurn.add (h : HasTurn w t) {store : SessionStore} {e : Event} (he : e.task = t)
    (hfits : e.Fits w.log)
    (hview : store.view (sessionKey t.slot) =
      (lastId (e :: w.log) t.slot, trailingRun (e :: w.log) t.slot))
    (hothers : ∀ key, key ≠ sessionKey t.slot → store.view key = w.store.view key) :
    HasTurn { w with store := store, log := e :: w.log } t := by
  have hslot : e.slot = t.slot := congrArg Task.slot he
  refine ⟨h.locked, ?_, h.accepted, fun u hu hne => ?_⟩
  · refine h.kept.add ?_ hfits ?_ ?_ <;> rw [hslot]
    · exact h.accepted
    · exact hview
    · exact hothers
  · obtain ⟨hpending, hu⟩ := h.others u hu hne
    exact ⟨hpending.cons (hslot ▸ hu), hu⟩

theorem HasTurn.doReset (h : HasTurn w t) (save : Bool) : HasTurn (w.doReset t save) t := by
  refine h.add rfl trivial ?_ fun key hne => SessionStore.view_reset_of_ne hne save
  rw [SessionStore.view_reset, lastId_cons, trailingRun_cons]
  simp [Event.idOf, Event.blockedOf]

theorem HasTurn.forget (h : HasTurn w t) : HasTurn (w.forget t) t := by
  refine h.add rfl trivial ?_ fun key hne => SessionStore.view_forgetResume_of_ne hne
  have hstreak : w.store.streak (sessionKey t.slot) = trailingRun w.log t.slot :=
    congrArg Prod.snd (h.kept.view t.slot h.accepted)
  rw [SessionStore.view_forgetResume, lastId_cons, trailingRun_cons, hstreak]
  simp [Event.idOf, Event.blockedOf]

theorem HasTurn.record [Host] (h : HasTurn w t) (hpending : Pending w.log t) (question prose : Str)
    (sc : Option Sidecar.Fields) (res : BridgeResult) :
    HasTurn (w.record t question prose sc res) t := by
  refine h.add rfl hpending ?_ fun key hne => SessionStore.view_bump_record_of_ne hne _ _ _
  obtain ⟨hid, hstreak⟩ := Prod.mk.inj (h.kept.view t.slot h.accepted)
  rw [SessionStore.view_bump_record, lastId_cons, trailingRun_cons, hid, hstreak]
  refine Prod.ext ?_ (by simp [Event.blockedOf])
  cases hsid : res.sessionId with
  | none => rfl
  | some sid =>
    by_cases hempty : sid = []
    · simp [Event.idOf, Option.filter, hempty]
    · simp [Event.idOf, Option.filter, hempty]

theorem Locked.drop {locks : WeakLock.Table Str Task} (h : Locked locks) (t : Task) :
    Locked (locks.drop t) :=
  ⟨h.sound.drop t, fun r hr => h.keyed r (WeakLock.Table.mem_drop_refs hr).1⟩

/-- A task that leaves with the turn. -/
theorem HasTurn.leave (h : HasTurn w t) : Inv (w.leave t) := by
  refine ⟨h.locked.drop t, h.kept, fun u hu => ?_⟩
  obtain ⟨hne, hholds⟩ := WeakLock.Table.holds_of_drop hu
  exact (h.others u hholds hne).1

theorem HasTurn.call (h : HasTurn w t) : Inv (w.call t) := by
  have hresume : w.store.resumeId (sessionKey t.slot) = lastId w.log t.slot :=
    congrArg Prod.fst (h.kept.view t.slot h.accepted)
  have hcalled : HasTurn { w with
      log := .called t (w.store.resumeId (sessionKey t.slot)) :: w.log } t := by
    refine h.add rfl hresume ?_ fun _ _ => rfl
    rw [h.kept.view t.slot h.accepted, lastId_cons, trailingRun_cons]
    rfl
  refine ⟨⟨h.locked.sound.acquire t, fun r hr => ?_⟩, hcalled.kept, fun u hu => ?_⟩
  · rw [World.call, WeakLock.Table.acquire_refs] at hr
    exact h.locked.keyed r hr
  · by_cases hut : u = t
    · subst hut
      exact ⟨[], _, w.log, rfl, by simp⟩
    · exact (hcalled.others u ((WeakLock.Table.holds_of_acquire hu).resolve_left hut) hut).1

theorem HasTurn.enter (h : HasTurn w t) (goes : Bool) : Inv (w.enter t goes) := by
  rw [World.enter]
  cases t.job with
  | reset save => exact (h.doReset save).leave
  | ask question reset =>
    have hfirst : HasTurn (if reset then w.doReset t true else w) t := by
      split_ifs
      · exact h.doReset true
      · exact h
    dsimp only
    generalize (if reset then w.doReset t true else w) = w' at hfirst
    cases goes with
    | true => exact hfirst.call
    | false => exact hfirst.leave

variable [Host]

theorem HasTurn.settle (h : HasTurn w t) (hpending : Pending w.log t) (question : Str)
    (res : BridgeResult) : HasTurn (w.settle t question res) t := by
  rw [World.settle]
  cases res.status with
  | refused => exact h
  | error =>
    dsimp only
    split_ifs
    · exact h.forget
    · exact h
  | ok =>
    dsimp only
    cases Sidecar.extract res.text with
    | error e => exact h
    | ok parts => exact h.record hpending question parts.1 parts.2 res

theorem Inv.reply (h : Inv w) (ht : w.locks.Holds t) (res : BridgeResult) : Inv (w.reply t res) := by
  rw [World.reply]
  cases t.job with
  | reset save => exact h
  | ask question reset =>
    exact ((h.hasTurn_of_holds ht).settle (h.pending t ht) question res).leave

omit [Host] in
theorem Inv.cancel (h : Inv w) (t : Task) : Inv (w.leave t) :=
  ⟨h.locked.drop t, h.kept, fun u hu => h.pending u (WeakLock.Table.holds_of_drop hu).2⟩

omit [Host] in
theorem Inv.evict (h : Inv w) (key : Str) : Inv { w with locks := w.locks.evict key } := by
  obtain ⟨hrefs, hholder⟩ := WeakLock.Table.evict_refs (w := w.locks) (k := key)
  refine ⟨⟨h.locked.sound.evict key, fun r hr => ?_⟩, h.kept, fun u hu => h.pending u ?_⟩
  · exact h.locked.keyed r (hrefs ▸ hr)
  · obtain ⟨r, hr, hru, hlock⟩ := hu
    exact ⟨r, hrefs ▸ hr, hru, hholder ▸ hlock⟩

omit [Host] in
theorem Inv.request (h : Inv w) (t : Task) (ht : sessionLabelError t.slot = false) :
    Inv { w with locks := w.locks.request t (sessionKey t.slot) } := by
  refine ⟨⟨h.locked.sound.request t _, fun r hr => ?_⟩, h.kept, fun u hu => h.pending u ?_⟩
  · rcases WeakLock.Table.mem_request_refs hr with hr | ⟨rfl, hkey⟩
    · exact h.locked.keyed r hr
    · exact ⟨hkey, ht⟩
  · exact h.locked.sound.holds_of_request hu

/-- A refused label stays away from the store, by either reading of an empty one. -/
theorem accepted_label {family : Family} {session : Json}
    (h : sessionLabelError ⟨family, textOr session []⟩ = false) :
    sessionLabelError ⟨family, label session⟩ = false := by
  rw [label, textOr]
  rw [textOr] at h
  split_ifs at h ⊢
  · exact h
  · cases family <;> decide

theorem resolve_accepted (lower : Str → Str) {req : Request} {slot : Slot} {job : Job}
    (h : req.resolve lower = some (slot, job)) : sessionLabelError slot = false := by
  have hclaude {family : Family} {session question reset : Json} {disabled : Bool}
      (h : handleClaudeAsk family session question reset disabled = some (slot, job)) :
      sessionLabelError slot = false := by
    rw [handleClaudeAsk] at h
    split_ifs at h with hrefused
    obtain ⟨rfl, -⟩ := Prod.mk.inj (Option.some.inj h)
    exact accepted_label (Bool.eq_false_iff.mpr fun hlabel => hrefused (Or.inr hlabel))
  cases req with
  | ask oracle session question reset disabled =>
    obtain ⟨family, -, hfamily⟩ := Option.bind_eq_some_iff.mp h
    exact hclaude hfamily
  | askOpus session question reset disabled => exact hclaude h
  | resetSession model session save =>
    rw [Request.resolve] at h
    split_ifs at h with hrefused
    obtain ⟨rfl, -⟩ := Prod.mk.inj (Option.some.inj h)
    exact Bool.eq_false_iff.mpr hrefused

theorem Inv.step (lower : Str → Str) (h : Inv w) (a : Act) : Inv (w.step lower a) := by
  cases a with
  | start id req =>
    rw [World.step]
    cases hreq : req.resolve lower with
    | none => exact h
    | some target => exact h.request ⟨id, target.1, target.2⟩ (resolve_accepted lower hreq)
  | enter t goes =>
    rw [World.step]
    split_ifs with hgrant
    · exact (h.hasTurn_of_grantable hgrant).enter goes
    · exact h
  | reply t res =>
    rw [World.step]
    split_ifs with hholding
    · exact h.reply (h.locked.sound.holding_iff.mp hholding) res
    · exact h
  | cancel t => exact h.cancel t
  | evict key => exact h.evict key

omit [Host] in
theorem Inv.init : Inv World.init := by
  refine ⟨⟨WeakLock.Table.sound_empty, ?_⟩, ⟨fun s _ => rfl, trivial⟩, ?_⟩
  · rintro r ⟨⟩
  · rintro t ⟨r, ⟨⟩, -⟩

/-- What holds of a world with no forked conversation. -/
structure Isolated (w : World) : Prop where
  /-- One turn of a store key at a time. -/
  serial : ∀ t t', w.locks.holding t = true → w.locks.holding t' = true →
    sessionKey t.slot = sessionKey t'.slot → t = t'
  /-- The bridge is called with the last id of the label. -/
  resumed : ∀ post t r pre, w.log = post ++ .called t r :: pre → r = lastId pre t.slot
  own : ∀ post t id pre, w.log = post ++ .called t (some id) :: pre →
    ∃ t' blocked, .recorded t' (some id) blocked ∈ pre ∧ t'.slot = t.slot
  /-- Between the call and the record of a turn its conversation is left alone. -/
  unbroken : ∀ post t id blocked pre, w.log = post ++ .recorded t id blocked :: pre →
    ∃ mid r pre', pre = mid ++ .called t r :: pre' ∧ ∀ e ∈ mid, e.slot ≠ t.slot
  streak : ∀ s, sessionLabelError s = false →
    w.store.streak (sessionKey s) = trailingRun w.log s

/-- In every run conversations are isolated. -/
theorem conversations_isolated (lower : Str → Str) (acts : List Act) :
    Isolated (acts.foldl (World.step lower) World.init) := by
  have h : Inv (acts.foldl (World.step lower) World.init) :=
    Machine.foldl_invariant _ (fun w a hw => hw.step lower a) Inv.init acts
  constructor
  · intro t t' ht ht' hkey
    obtain ⟨r, hr, rfl, hholder⟩ := h.locked.sound.holding_iff.mp ht
    obtain ⟨r', hr', rfl, hholder'⟩ := h.locked.sound.holding_iff.mp ht'
    have hsame : r.key = r'.key := by
      rw [(h.locked.keyed r hr).1, (h.locked.keyed r' hr').1, hkey]
    exact h.locked.sound.exclusive hr hr' hsame hholder hholder'
  · intro post t r pre hlog
    exact (hlog ▸ h.kept.told).fits
  · intro post t id pre hlog
    have hresumed : some id = lastId pre t.slot := (hlog ▸ h.kept.told).fits
    exact recorded_of_lastId hresumed.symm
  · intro post t id blocked pre hlog
    exact (hlog ▸ h.kept.told).fits
  · intro s hs
    exact congrArg Prod.snd (h.kept.view s hs)

end

end AskFable.Ask

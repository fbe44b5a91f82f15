import AskFable.Lms.Effects

/-!
# What a failed swap gives back

A call of `_ensure_loaded_locked` that fails owes the operator every instance it saw gone:
a reload at the window the instance had, and its name in the outcome. The call can end in
four ways, and one of them leaves that debt open.
-/
namespace AskFable.Lms
open AskFable.Text AskFable.Journal

/-- The instances seen gone, but for the floor-context probe's own. -/
def taken (log : List Event) : List (Str × ℤ) :=
  log.filterMap fun
    | .gone v => if v.floor then none else some (v.key, v.context)
    | _ => none

/-- A failed call asked for each of them back, and names it. -/
def Restored (o : LoadOutcome) (log : List Event) : Prop :=
  o.ok = false → ∀ pre v post, log = pre ++ .gone v :: post → v.floor = false →
    (∃ err, .load v.key v.context err ∈ post) ∧ (v.key <:+: o.detail ∨ v.key ∈ o.unloaded)

/-- Where the server accepts a load and the model then does not appear in time, nothing had
been unloaded, or only that very model at that very window. -/
def SeenLoaded (log : List Event) : Prop :=
  ∀ pre key context reads, Reads reads →
    log = pre ++ .load key context none :: (reads ++ [.appeared key false]) →
      ∀ p ∈ taken pre, p = (key, context)

@[simp] theorem taken_nil : taken [] = [] := rfl

@[simp] theorem taken_append (a b : List Event) : taken (a ++ b) = taken a ++ taken b :=
  List.filterMap_append

@[simp] theorem taken_cons (e : Event) (log : List Event) :
    taken (e :: log) = (match e with
      | .gone v => if v.floor then [] else [(v.key, v.context)]
      | _ => []) ++ taken log := by
  cases e with
  | gone v => cases h : v.floor <;> simp [taken, h]
  | _ => rfl

theorem Reads.taken {log : List Event} (h : Reads log) : taken log = [] := by
  induction log with
  | nil => rfl
  | cons e log ih =>
    obtain ⟨rfl, hlog⟩ := List.forall_mem_cons.mp h
    simpa using ih hlog

theorem ProbeTrail.taken {key why : Str} {proven : Bool} {log : List Event}
    (h : ProbeTrail key why proven log) : taken log = [] := by
  cases h with
  | failed => rfl
  | chatting => rfl
  | stuck hv hkey hreads => simp [hreads.taken]
  | freed hv hkey hreads => simp [hreads.taken, hv]

/-- Whatever is taken is seen gone at some point of the journal. -/
theorem mem_taken {p : Str × ℤ} {log : List Event} (h : p ∈ taken log) :
    ∃ pre v post, log = pre ++ .gone v :: post ∧ v.floor = false ∧ p = (v.key, v.context) := by
  obtain ⟨e, he, hp⟩ := List.mem_filterMap.mp h
  obtain ⟨pre, post, hlog⟩ := List.append_of_mem he
  cases e with
  | gone v =>
    cases hv : v.floor with
    | true => simp [hv] at hp
    | false => exact ⟨pre, v, post, hlog, hv, by simpa [hv] using hp.symm⟩
  | _ => nomatch hp

theorem gone_mem_taken {v : Victim} (pre post : List Event) (hv : v.floor = false) :
    (v.key, v.context) ∈ taken (pre ++ .gone v :: post) := by simp [hv]

theorem Loads.taken {log : List Event} (h : Loads log) : taken log = [] := by
  refine List.eq_nil_iff_forall_not_mem.mpr fun p hp => ?_
  obtain ⟨pre, v, post, rfl, -, -⟩ := mem_taken hp
  exact h.not_gone v (by simp)

/-- How a call can end: with nothing taken; with the model loaded; with everything taken
asked back and named; or with a load that was accepted and not seen to be there. -/
inductive Ending (o : LoadOutcome) : List Event → Prop
  | untouched {log : List Event} (h : taken log = []) : Ending o log
  | loaded (hok : o.ok = true) (pre : List Event) : Ending o (pre ++ [.read])
  | restored (pre : List Event) {post : List Event}
      (hpost : Loads post)
      (hback : ∀ p ∈ taken pre, ∃ err, .load p.1 p.2 err ∈ post)
      (hnamed : ∀ p ∈ taken pre, p.1 <:+: o.detail ∨ p.1 ∈ o.unloaded) : Ending o (pre ++ post)
  | unseen {base body reads : List Event} {key : Str} {context : ℤ} (hbase : taken base = [])
      (hbody : ∀ k c err, .load k c err ∈ body → k = key ∧ c = context) (hreads : Reads reads)
      (hfailed : o.ok = false) (hnamed : key <:+: o.detail) :
      Ending o (base ++ body ++ .load key context none :: (reads ++ [.appeared key false]))

variable {o : LoadOutcome}

theorem Ending.behind {base log : List Event} (hbase : taken base = []) (h : Ending o log) :
    Ending o (base ++ log) := by
  cases h with
  | untouched h => exact .untouched (by simp [hbase, h])
  | loaded hok pre =>
    rw [← List.append_assoc]
    exact .loaded hok _
  | restored pre hpost hback hnamed =>
    rw [← List.append_assoc]
    exact .restored _ hpost (by simpa [hbase] using hback) (by simpa [hbase] using hnamed)
  | @unseen base' body reads key context hbase' hbody hreads hfailed hnamed =>
    simp only [← List.append_assoc base]
    exact .unseen (by simp [hbase, hbase']) hbody hreads hfailed hnamed

theorem restored_of_taken_eq_nil {log : List Event} (h : taken log = []) : Restored o log := by
  rintro - pre v post rfl hv
  have hmem := gone_mem_taken pre post hv
  rw [h] at hmem
  nomatch hmem

/-- What is seen gone in two steps' work, the second of which sees nothing gone, is seen
gone in the first. -/
theorem gone_of_append {a b pre post : List Event} {v : Victim} (hb : ∀ u, .gone u ∉ b)
    (h : a ++ b = pre ++ .gone v :: post) : ∃ c, a = pre ++ .gone v :: c ∧ post = c ++ b := by
  refine (split_append h).resolve_right ?_
  rintro ⟨c, -, rfl⟩
  exact hb v (by simp)

theorem append_singleton_inj {a b : List Event} {x y : Event} (h : a ++ [x] = b ++ [y]) : x = y := by
  simpa using congrArg List.getLast? h

theorem Reads.not_load {log : List Event} (h : Reads log) (key : Str) (c : ℤ) (err : Option Str)
    (k : Str) (ok : Bool) : .load key c err ∉ log ++ [.appeared k ok] := by
  intro hmem
  rcases List.mem_append.mp hmem with hmem | hmem
  · nomatch h _ hmem
  · simp at hmem

/-- The load a wait is for is the last one before it. -/
theorem unseen_inj {pre pre' reads reads' : List Event} {key key' : Str} {c c' : ℤ}
    (hreads : Reads reads) (hreads' : Reads reads')
    (h : pre ++ .load key c none :: (reads ++ [.appeared key false]) =
      pre' ++ .load key' c' none :: (reads' ++ [.appeared key' false])) :
    pre = pre' ∧ key = key' ∧ c = c' := by
  rcases List.append_eq_append_iff.mp h with ⟨d, rfl, hd⟩ | ⟨d, rfl, hd⟩
  · cases d with
    | nil =>
      injection (List.cons.inj hd).1 with hkey hc
      exact ⟨(List.append_nil pre).symm, hkey, hc⟩
    | cons e d =>
      have htail := (List.cons.inj hd).2
      exact absurd (htail ▸ by simp) (hreads.not_load key' c' none key false)
  · cases d with
    | nil =>
      injection (List.cons.inj hd).1 with hkey hc
      exact ⟨List.append_nil pre', hkey.symm, hc.symm⟩
    | cons e d =>
      have htail := (List.cons.inj hd).2
      exact absurd (htail ▸ by simp) (hreads'.not_load key c none key' false)

/-- A journal that ends with a reload of what was taken does not end with a wait. -/
theorem seenLoaded_of_loads {pre post : List Event} (hpost : Loads post)
    (hback : ∀ p ∈ taken pre, ∃ err, .load p.1 p.2 err ∈ post) : SeenLoaded (pre ++ post) := by
  intro pre' key context reads _ hlog p hp
  have hmem : p ∈ taken (pre ++ post) := by
    rw [hlog, taken_append]
    exact List.mem_append_left _ hp
  rw [taken_append, hpost.taken, List.append_nil] at hmem
  obtain ⟨err, herr⟩ := hback p hmem
  obtain ⟨front, last, rfl⟩ := List.eq_nil_or_concat post |>.resolve_left (List.ne_nil_of_mem herr)
  obtain ⟨_, _, _, rfl⟩ := hpost last (by simp)
  rw [List.concat_eq_append, ← List.append_assoc, ← List.cons_append, ← List.append_assoc] at hlog
  nomatch append_singleton_inj hlog

/-- Where the last load went unseen, all that is owed is given back exactly when that load is of
all that was taken. -/
theorem restored_iff_of_unseen {base body reads : List Event} {key : Str} {context : ℤ}
    (hbase : taken base = [])
    (hbody : ∀ k c err, .load k c err ∈ body → k = key ∧ c = context) (hreads : Reads reads)
    (hfailed : o.ok = false) (hnamed : key <:+: o.detail) :
    Restored o (base ++ body ++ .load key context none :: (reads ++ [.appeared key false])) ↔
      SeenLoaded (base ++ body ++ .load key context none :: (reads ++ [.appeared key false])) := by
  constructor
  · intro hrestored pre' key' context' reads' hreads' hlog p hp
    obtain ⟨rfl, rfl, rfl⟩ := unseen_inj hreads hreads' hlog
    rw [taken_append, hbase, List.nil_append] at hp
    obtain ⟨pre, v, post, rfl, hv, rfl⟩ := mem_taken hp
    obtain ⟨⟨err, herr⟩, -⟩ := hrestored hfailed (base ++ pre) v
      (post ++ Event.load key context none :: (reads ++ [Event.appeared key false])) (by simp) hv
    rcases List.mem_append.mp herr with herr | herr
    · obtain ⟨hkey, hcontext⟩ :=
        hbody _ _ _ (List.mem_append_right pre (List.mem_cons_of_mem _ herr))
      rw [hkey, hcontext]
    · rcases List.mem_cons.mp herr with herr | herr
      · injection herr with hkey hcontext
        rw [hkey, hcontext]
      · exact absurd herr (hreads.not_load _ _ _ _ _)
  · intro hseen _ pre' v post' hlog hv
    have htail (u : Victim) :
        Event.gone u ∉ Event.load key context none :: (reads ++ [Event.appeared key false]) := by
      intro hu
      rcases List.mem_cons.mp hu with hu | hu
      · nomatch hu
      · rcases List.mem_append.mp hu with hu | hu
        · nomatch hreads _ hu
        · simp at hu
    obtain ⟨c, hbody', rfl⟩ := gone_of_append htail hlog
    have hmem := hseen _ key context reads hreads rfl _ (hbody' ▸ gone_mem_taken pre' c hv)
    injection hmem with hkey hcontext
    rw [hkey, hcontext]
    exact ⟨⟨none, by simp⟩, Or.inl hnamed⟩

/-- Whatever the ending, what is owed is given back exactly where no accepted load of
something else goes unseen. -/
theorem Ending.restored_iff {log : List Event} (h : Ending o log) :
    Restored o log ↔ SeenLoaded log := by
  cases h with
  | untouched h =>
    refine iff_of_true (restored_of_taken_eq_nil h) fun pre key context reads _ hlog p hp => ?_
    rw [hlog, taken_append] at h
    rw [(List.append_eq_nil_iff.mp h).1] at hp
    nomatch hp
  | loaded hok pre =>
    refine iff_of_true (fun hfailed => by simp [hok] at hfailed) ?_
    intro pre' key context reads _ hlog
    rw [← List.cons_append, ← List.append_assoc] at hlog
    nomatch append_singleton_inj hlog
  | @restored pre post hpost hback hnamed =>
    refine iff_of_true ?_ (seenLoaded_of_loads hpost hback)
    intro _ pre' v post' hlog hv
    obtain ⟨c, rfl, rfl⟩ := gone_of_append hpost.not_gone hlog
    have hmem := gone_mem_taken pre' c hv
    obtain ⟨err, herr⟩ := hback _ hmem
    exact ⟨⟨err, List.mem_append_right _ herr⟩, hnamed _ hmem⟩
  | unseen hbase hbody hreads hfailed hnamed =>
    exact restored_iff_of_unseen hbase hbody hreads hfailed hnamed

variable (site : Site) (w : World) {old : List Event}

theorem classify_takes (key err : Str) (attempted : ℤ) :
    Adds (classify site w key err attempted) old fun _ new => taken new = [] := by
  rw [classify]
  split_ifs
  · apply Adds.bind (probeCrashMemory_adds site w key)
    rintro r _ ⟨trail, htrail, rfl⟩
    exact Adds.pure (by simp [htrail.taken])
  · exact Adds.pure taken_nil
  · exact Adds.pure taken_nil

theorem firstLoads_takes (key : Str) (want needed : ℤ) :
    Adds (firstLoads site w key want needed) old fun _ new => taken new = [] := by
  apply Adds.bind (loadInstance_adds w key want)
  rintro r _ rfl
  cases r with
  | ok info => exact Adds.pure rfl
  | error err =>
    dsimp only
    split_ifs
    · apply Adds.bind (loadInstance_adds w key _)
      rintro r _ rfl
      cases r with
      | ok info => exact Adds.pure rfl
      | error err => exact (classify_takes site w key err _).mono fun _ _ h => by simpa using h
    · exact (classify_takes site w key err _).mono fun _ _ h => by simpa using h
    · exact Adds.pure rfl

/-- An outcome that asks back, in what it adds last, all that was taken, and names it. -/
structure GivesBack (unloaded : List (Str × ℤ)) (o : LoadOutcome) (post : List Event) : Prop where
  loads : Loads post
  back : ∀ p ∈ unloaded, ∃ err, .load p.1 p.2 err ∈ post
  named : ∀ p ∈ unloaded, p.1 <:+: o.detail ∨ p.1 ∈ o.unloaded

theorem GivesBack.ending {pre post : List Event} (h : GivesBack (taken pre) o post) :
    Ending o (pre ++ post) := .restored pre h.loads h.back h.named

theorem Abandons.givesBack {key : Str} {unloaded : List (Str × ℤ)} {post : List Event}
    (h : Abandons key unloaded o post) : GivesBack unloaded o post := by
  refine ⟨h.loads, h.asked, fun p hp => Or.inr ?_⟩
  rw [h.named]
  exact List.mem_map_of_mem hp

theorem swapFailed_givesBack (key err : Str) (unloaded : List (Str × ℤ)) :
    Adds (swapFailed w key err unloaded) old (GivesBack unloaded) := by
  apply Adds.bind (restoreClause_adds w unloaded)
  rintro clause new ⟨hback, hloads⟩
  rw [← List.append_nil new] at hback hloads
  exact Adds.pure ⟨hloads, hback, fun p hp => Or.inr (List.mem_map_of_mem hp)⟩

/-- The swap loop either gives up, giving back all that it and what came before it took, or
hands on what it took; a load it ends well with is of the model, and its last entry. -/
theorem VacateTrail.accounts {key : Str} {want : ℤ} {unloaded : List (Str × ℤ)}
    {result : Except Str LoadInfo} {answer : LoadOutcome ⊕ Except Str LoadInfo × List (Str × ℤ)}
    {new : List Event} (h : VacateTrail key want unloaded result answer new) :
    match answer with
      | .inl o => ∃ pre post, new = pre ++ post ∧ GivesBack (unloaded ++ taken pre) o post
      | .inr (result', unloaded') => unloaded' = unloaded ++ taken new ∧
        (∀ k c err, .load k c err ∈ new → k = key ∧ c = want) ∧
        (result'.isOk → new = [] ∧ result.isOk ∨ ∃ body, new = body ++ [.load key want none]) := by
  induction h with
  | handed unloaded result => exact ⟨by simp, by simp, fun h => Or.inl ⟨rfl, h⟩⟩
  | chatting r h => exact ⟨[Event.claim r.key false], _, rfl, by simpa using h.givesBack⟩
  | @stuck _ _ r reads hreads _ _ h =>
    refine ⟨.claim r.key true :: Event.unload r.victim :: reads, _, rfl, ?_⟩
    simpa [hreads.taken] using h.givesBack
  | @next unloaded result result' r reads hreads answer more h ih =>
    have htaken : taken (Event.claim r.key true :: Event.unload r.victim ::
        (reads ++ Event.gone r.victim :: Event.load key want (errorOf result') :: more)) =
          (r.key, r.context) :: taken more := by
      simp [hreads.taken, Resident.victim]
    cases answer with
    | inl o =>
      obtain ⟨pre, post, rfl, hback⟩ := ih
      refine ⟨.claim r.key true :: Event.unload r.victim ::
        (reads ++ Event.gone r.victim :: Event.load key want (errorOf result') :: pre), post,
        by simp, ?_⟩
      simpa [hreads.taken, Resident.victim] using hback
    | inr handed =>
      obtain ⟨hunloaded, hloads, hok⟩ := ih
      refine ⟨by rw [htaken, hunloaded, List.append_assoc]; rfl, ?_, fun hfinal => Or.inr ?_⟩
      · intro k c err hload
        simp only [List.mem_append, List.mem_cons, false_or, reduceCtorEq] at hload
        rcases hload with hload | hload | hload
        · cases hreads _ hload
        · injection hload with hk hc
          exact ⟨hk, hc⟩
        · exact hloads k c err hload
      · rcases hok hfinal with ⟨rfl, hloaded⟩ | ⟨body, rfl⟩
        · cases result' with
          | error err => exact Bool.noConfusion hloaded
          | ok info => exact ⟨.claim r.key true :: Event.unload r.victim ::
              (reads ++ [Event.gone r.victim]), by simp⟩
        · exact ⟨.claim r.key true :: Event.unload r.victim ::
            (reads ++ Event.gone r.victim :: Event.load key want (errorOf result') :: body),
            by simp⟩

/-- A confirmation in time, or its time-out. -/
inductive Confirmation (key : Str) (o : LoadOutcome) : List Event → Prop
  | seen (hok : o.ok = true) {pre : List Event} (hpre : taken pre = []) :
      Confirmation key o (pre ++ [.read])
  | timeout (hfailed : o.ok = false) (hnamed : key <:+: o.detail) {reads : List Event}
      (hreads : Reads reads) : Confirmation key o (reads ++ [.appeared key false])

theorem Confirmation.taken {key : Str} {log : List Event} (h : Confirmation key o log) :
    taken log = [] := by
  cases h with
  | seen hok hpre => simp [hpre]
  | timeout hfailed hnamed hreads => simp [hreads.taken]

/-- After a load, a confirmation ends the call as one that loaded or went unseen. -/
theorem Confirmation.ending {key : Str} {context : ℤ} {body post : List Event}
    (hbody : ∀ k c err, .load k c err ∈ body → k = key ∧ c = context)
    (h : Confirmation key o post) : Ending o (body ++ .load key context none :: post) := by
  cases h with
  | seen hok hpre =>
    rw [← List.cons_append, ← List.append_assoc]
    exact .loaded hok _
  | timeout hfailed hnamed hreads => exact @Ending.unseen _ [] _ _ _ _ rfl hbody hreads hfailed hnamed

theorem confirmLoad_confirms (key : Str) (want : ℤ) (residents : List Resident) (a : Attempt)
    (unloaded : List (Str × ℤ)) (info : LoadInfo) :
    Adds (confirmLoad site w key want residents a unloaded info) old (Confirmation key) := by
  apply Adds.bind (waitLoaded_adds site w key)
  rintro ok _ ⟨reads, hreads, rfl⟩
  cases ok with
  | true =>
    apply Adds.bind (modelsEntries_adds w)
    rintro after _ ⟨rfl, -⟩
    apply Adds.bind (confirmedContext_adds site w key)
    rintro confirmed _ rfl
    refine Adds.pure ?_
    rw [List.append_nil, ← List.append_assoc]
    exact .seen rfl (by simp [hreads.taken])
  | false =>
    refine Adds.pure ?_
    rw [List.append_nil]
    exact .timeout rfl (List.prefix_append key _).isInfix hreads

theorem ReloadTrail.ending {entry : Entry} {want : ℤ} {log : List Event}
    (h : ReloadTrail entry want o log) : Ending o log := by
  cases h with
  | chatting => exact .untouched rfl
  | stuck hreads => exact .untouched (by simp [hreads.taken])
  | @failed reads back err hreads hback hloads hnamed =>
    let pre : List Event := Event.claim entry.key true :: Event.unload entry.victim ::
      (reads ++ [Event.gone entry.victim, Event.load entry.key want (some err)])
    have htaken : taken pre = [(entry.key, entry.window)] := by
      simp [pre, hreads.taken, Entry.victim]
    have hgives : Ending o (pre ++ back) := by
      refine .restored pre hloads ?_ ?_ <;> rw [htaken] <;> rintro p hp <;>
        obtain rfl := List.mem_singleton.mp hp
      · exact hback
      · exact Or.inl hnamed
    simpa [pre] using hgives
  | @seen reads reads' hok hreads hreads' =>
    have hloaded := Ending.loaded hok (Event.claim entry.key true :: Event.unload entry.victim ::
      (reads ++ Event.gone entry.victim :: Event.load entry.key want none ::
        (reads' ++ [Event.appeared entry.key true])))
    simpa using hloaded
  | @unseen reads reads' hfailed hnamed hreads hreads' =>
    let body : List Event := Event.claim entry.key true :: Event.unload entry.victim ::
      (reads ++ [Event.gone entry.victim])
    have hbody : ∀ k c err, Event.load k c err ∈ body → k = entry.key ∧ c = want := by
      intro k c err hload
      simp only [body, List.mem_cons, List.mem_append, reduceCtorEq, false_or, List.not_mem_nil,
        or_false] at hload
      nomatch hreads _ hload
    have hlost := Confirmation.ending hbody (.timeout hfailed hnamed hreads')
    simpa [body] using hlost

theorem swap_ends (models : List Entry) (key : Str) (want : ℤ) (residents : List Resident)
    (a : Attempt) (err : Str) : Adds (swap site w models key want residents a err) old Ending := by
  apply Adds.bind (currentResidents_adds w residents a.crashed)
  rintro residents base ⟨hbase, -⟩
  apply Adds.bind (vacate_adds site w key want residents [] (.error err))
  rintro (o | ⟨result, unloaded⟩) new hnew
  · obtain ⟨pre, post, rfl, h⟩ := hnew.accounts
    refine Adds.pure ?_
    rw [List.append_nil]
    exact (GivesBack.ending h).behind hbase.taken
  · obtain ⟨rfl, hloads, hok⟩ := hnew.accounts
    cases result with
    | ok info =>
      rcases hok rfl with ⟨-, h⟩ | ⟨body, rfl⟩
      · exact Bool.noConfusion h
      · refine (confirmLoad_confirms site w key want residents a _ info).mono fun o post h => ?_
        have hbody : ∀ k c err, .load k c err ∈ body → k = key ∧ c = want := fun k c err hload =>
          hloads k c err (List.mem_append_left _ hload)
        simpa using (Confirmation.ending hbody h).behind hbase.taken
    | error err =>
      dsimp only
      split_ifs with hunloaded
      · refine (swapFailed_givesBack w key err _).mono fun o post h => ?_
        simpa using (GivesBack.ending h).behind hbase.taken
      · refine Adds.pure (.untouched ?_)
        simpa [hbase.taken] using hunloaded

theorem loadBeside_ends (models : List Entry) (entry : Entry) (est want : ℤ) :
    Adds (loadBeside site w models entry est want) old Ending := by
  rw [loadBeside]
  generalize (if w.monitors = true then w.gpu else Gpu.absent) = gpu
  generalize (if w.monitors = true then roomVerdict entry.size gpu else .unknown) = verdict
  split_ifs
  · exact Adds.pure (.untouched rfl)
  · exact Adds.pure (.untouched rfl)
  · apply Adds.bind (firstLoads_takes site w entry.key want _)
    intro a new hnew
    cases a.result with
    | ok info =>
      refine (confirmLoad_confirms site w entry.key want _ a [] info).mono fun o post h => ?_
      exact .untouched (by simp [hnew, h.taken])
    | error err =>
      dsimp only
      split_ifs
      · exact (swap_ends site w models entry.key want _ a err).mono fun o post h => h.behind hnew
      · exact Adds.pure (.untouched (by simp [hnew]))

theorem ensureLoadedLocked_ends (model : Str) (est : ℤ) :
    Adds (ensureLoadedLocked site w model est) old Ending := by
  apply Adds.bind (modelsEntries_adds w)
  rintro models _ ⟨rfl, -⟩
  cases models with
  | none => exact Adds.pure (.untouched rfl)
  | some models =>
    dsimp only
    cases findModel site models model with
    | none => exact Adds.pure (.untouched rfl)
    | some entry =>
      dsimp only
      cases refusal site entry est with
      | some o => exact Adds.pure (.untouched rfl)
      | none =>
        dsimp only
        split_ifs
        · exact Adds.pure (.untouched rfl)
        · exact Adds.pure (.untouched rfl)
        · exact (reload_adds site w entry _).mono fun o new h => h.2.ending.behind rfl
        · exact (loadBeside_ends site w models entry est _).mono fun o new h => h.behind rfl

/-- A call that fails has asked back every instance it saw gone, at the window it had, and
names it, exactly where no load that the server accepted goes unseen after an unload. -/
theorem failed_swap_restores (model : Str) (est : ℤ) :
    Restored (ensureLoadedLocked site w model est []).1 (ensureLoadedLocked site w model est []).2 ↔
      SeenLoaded (ensureLoadedLocked site w model est []).2 :=
  (ensureLoadedLocked_ends site w model est).run.restored_iff

/-- `b` does not fit beside `a`; `a` is unloaded, `b` is loaded, and `b` is never listed. -/
def unlisted : World where
  monitors := false
  gpu := Gpu.absent
  models n := some [⟨txt "a", txt "llm", none, none, decide (n < 5), none, some 4096⟩,
    ⟨txt "b", txt "llm", none, none, false, none, none⟩]
  load n := if n < 7 then .error (.http 500 (txt "out of memory") []) else .ok ⟨none, none⟩
  unload _ := none
  chatting _ := false
  polls _ := 0

theorem unseen_load_keeps_resident_off :
    ¬∀ (site : Site) (w : World) (model : Str) (est : ℤ),
      Restored (ensureLoadedLocked site w model est []).1
        (ensureLoadedLocked site w model est []).2 := by
  intro h
  have hrestored := h (.ascii (txt "auto")) unlisted (txt "b") 100
  rw [(ensureLoadedLocked_ends _ _ _ _).run.restored_iff] at hrestored
  have hlog : ensureLoadedLocked (.ascii (txt "auto")) unlisted (txt "b") 100 [] =
      ({ kind := some .load_failed
         detail := txt "b load returned but it never appeared as loaded"
         model := txt "b" },
        [Event.read, Event.load (txt "b") 32768 (some (txt "HTTP 500: out of memory")),
          Event.load (txt "b") 868 (some (txt "HTTP 500: out of memory")),
          Event.claim (txt "a") true, Event.unload ⟨txt "a", txt "a", 4096, false⟩, Event.read,
          Event.gone ⟨txt "a", txt "a", 4096, false⟩] ++
        Event.load (txt "b") 32768 none :: ([Event.read] ++ [Event.appeared (txt "b") false])) := by
    decide +kernel
  have hmem := hrestored _ _ _ [Event.read] (by simp) (congrArg Prod.snd hlog) (txt "a", 4096)
    (by decide +kernel)
  exact absurd hmem (by decide +kernel)

end AskFable.Lms

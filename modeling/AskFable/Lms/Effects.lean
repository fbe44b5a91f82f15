import AskFable.Lms.Ensure

/-!
# What each step of a load adds to the journal
-/
namespace AskFable.Lms
open AskFable.Text AskFable.Journal

@[simp] def errorOf {α : Type} : Except Str α → Option Str
  | .ok _ => none
  | .error err => some err

/-- An entry of two steps' work is in the first's or in the second's. -/
theorem split_append {a b pre post : List Event} {e : Event} (h : a ++ b = pre ++ e :: post) :
    (∃ c, a = pre ++ e :: c ∧ post = c ++ b) ∨ ∃ c, pre = a ++ c ∧ b = c ++ e :: post := by
  rcases List.append_eq_append_iff.mp h with ⟨c, hpre, hb⟩ | ⟨c, ha, hc⟩
  · exact Or.inr ⟨c, hpre, hb⟩
  · cases c with
    | nil =>
      rw [List.append_nil] at ha
      exact Or.inr ⟨[], by simp [ha], by simpa using hc.symm⟩
    | cons d c =>
      obtain ⟨rfl, rfl⟩ := List.cons.inj hc
      exact Or.inl ⟨c, ha, rfl⟩

/-- Only catalog reads. -/
def Reads (log : List Event) : Prop := ∀ e ∈ log, e = .read

@[simp] theorem Reads.nil : Reads [] := by simp [Reads]

@[simp] theorem Reads.cons_iff (log : List Event) : Reads (.read :: log) ↔ Reads log := by
  simp [Reads]

/-- Only load requests. -/
def Loads (log : List Event) : Prop := ∀ e ∈ log, ∃ key context err, e = .load key context err

theorem Loads.not_gone {log : List Event} (h : Loads log) (u : Victim) : .gone u ∉ log := by
  intro hu
  obtain ⟨_, _, _, hload⟩ := h _ hu
  nomatch hload

variable (site : Site) (w : World) {old : List Event}

theorem modelsEntries_adds :
    Adds (modelsEntries w) old fun models new => new = [.read] ∧ models = w.models old.length :=
  ⟨[.read], rfl, rfl, rfl⟩

theorem loadInstance_adds (model : Str) (context : ℤ) :
    Adds (loadInstance w model context) old fun r new =>
      new = [.load model context (errorOf r)] := by
  apply Adds.bind (Adds.now (R := fun n new => n = old.length ∧ new = []) ⟨rfl, rfl⟩)
  rintro n _ ⟨-, rfl⟩
  cases w.load n with
  | ok info => exact ⟨_, rfl, rfl⟩
  | error failure => exact ⟨_, rfl, rfl⟩

theorem unloadInstance_adds (v : Victim) :
    Adds (unloadInstance w v) old fun _ new => new = [.unload v] := ⟨_, rfl, rfl⟩

theorem unloadClaim_adds (key : Str) :
    Adds (unloadClaim w key) old fun claimed new =>
      new = [.claim key claimed] ∧ claimed = !w.chatting old.length := ⟨_, rfl, rfl, rfl⟩

theorem waitUntil_adds (predicate : List Entry → Bool) (n : ℕ) :
    Adds (waitUntil w predicate n) old fun _ new => Reads new := by
  induction n generalizing old with
  | zero => exact ⟨[.read], rfl, by simp⟩
  | succ n ih =>
    apply Adds.bind (modelsEntries_adds w)
    rintro models _ ⟨rfl, -⟩
    split
    · exact Adds.pure (by simp)
    · exact ih.mono fun _ _ h => by simpa using h

/-- The wait ends with the catalog showing the model, or without it. -/
theorem waitLoaded_adds (key : Str) :
    Adds (waitLoaded site w key) old fun ok new =>
      ∃ reads, Reads reads ∧ new = reads ++ [.appeared key ok] := by
  apply Adds.bind (Adds.now (R := fun _ new => new = []) rfl)
  rintro n _ rfl
  apply Adds.bind (waitUntil_adds w _ _)
  intro ok reads hreads
  exact ⟨[.appeared key ok], rfl, reads, hreads, rfl⟩

theorem confirmedContext_adds (key : Str) :
    Adds (confirmedContext site w key) old fun _ new => new = [.read] := ⟨_, rfl, rfl⟩

/-- An unload asked for, and seen through where nothing is reported. -/
theorem unloadAndWait_adds (v : Victim) :
    Adds (unloadAndWait site w v) old fun err new => ∃ reads, Reads reads ∧
      new = .unload v :: (reads ++ if err.isNone then [.gone v] else []) := by
  apply Adds.bind (unloadInstance_adds w v)
  rintro err _ rfl
  cases err with
  | some err => exact Adds.pure ⟨[], by simp, by simp⟩
  | none =>
    apply Adds.bind (Adds.now (R := fun _ new => new = []) rfl)
    rintro n _ rfl
    apply Adds.bind (waitUntil_adds w _ _)
    intro gone reads hreads
    cases gone with
    | true => exact Adds.tell_pure ⟨reads, hreads, by simp⟩
    | false => exact Adds.pure ⟨reads, hreads, by simp⟩

/-- What a floor-context probe leaves, up to the note of what it came back with. -/
inductive ProbeTrail (key : Str) (why : Str) : Bool → List Event → Prop
  | failed : ProbeTrail key why false [.load key FLOOR_CONTEXT (some why)]
  | chatting : ProbeTrail key why false [.load key FLOOR_CONTEXT none, .read, .claim key false]
  | stuck {v : Victim} (hv : v.floor = true) (hkey : v.key = key) {reads : List Event}
      (hreads : Reads reads) : ProbeTrail key why false
        ([.load key FLOOR_CONTEXT none, .read, .claim key true, .unload v] ++ reads)
  | freed {v : Victim} (hv : v.floor = true) (hkey : v.key = key) {reads : List Event}
      (hreads : Reads reads) : ProbeTrail key why true
        ([.load key FLOOR_CONTEXT none, .read, .claim key true, .unload v] ++ reads ++ [.gone v])

theorem probeCrashMemory_adds (key : Str) :
    Adds (probeCrashMemory site w key) old fun r new =>
      ∃ trail, ProbeTrail key r.2 r.1 trail ∧ new = trail ++ [.probed r.1 r.2] := by
  apply Adds.bind (loadInstance_adds w key FLOOR_CONTEXT)
  rintro r _ rfl
  cases r with
  | error err => exact Adds.tell_pure ⟨_, .failed, rfl⟩
  | ok info =>
    apply Adds.bind (modelsEntries_adds w)
    rintro models _ ⟨rfl, -⟩
    apply Adds.bind (unloadClaim_adds w key)
    rintro claimed _ ⟨rfl, -⟩
    cases claimed with
    | false => exact Adds.tell_pure ⟨_, .chatting, rfl⟩
    | true =>
      generalize ((findModel site (models.getD []) key).bind (·.instanceId)).getD key = inst
      let v : Victim := ⟨key, inst, FLOOR_CONTEXT, true⟩
      apply Adds.bind (unloadAndWait_adds site w v)
      rintro err _ ⟨reads, hreads, rfl⟩
      cases err with
      | some uerr => exact Adds.tell_pure ⟨_, .stuck (v := v) rfl rfl hreads, by simp [errorOf, v]⟩
      | none => exact Adds.tell_pure ⟨_, .freed (v := v) rfl rfl hreads, by simp [errorOf, v]⟩

/-- Every model given back is asked for at the window it had, and nothing else is done. -/
theorem restore_adds (unloaded : List (Str × ℤ)) :
    Adds (restore w unloaded) old fun _ new =>
      (∀ p ∈ unloaded, ∃ err, .load p.1 p.2 err ∈ new) ∧ Loads new := by
  induction unloaded generalizing old with
  | nil => exact Adds.pure (by simp [Loads])
  | cons p rest ih =>
    apply Adds.bind (loadInstance_adds w p.1 p.2)
    rintro r _ rfl
    apply Adds.bind ih
    rintro failed new ⟨hall, honly⟩
    refine Adds.pure ⟨?_, ?_⟩
    · intro q hq
      rcases List.mem_cons.mp hq with rfl | hq
      · exact ⟨errorOf r, by simp⟩
      · obtain ⟨err, herr⟩ := hall q hq
        exact ⟨err, by simp [herr]⟩
    · intro e he
      simp only [List.append_nil, List.singleton_append, List.mem_cons] at he
      rcases he with rfl | he
      · exact ⟨_, _, _, rfl⟩
      · exact honly e he

theorem restoreClause_adds (unloaded : List (Str × ℤ)) :
    Adds (restoreClause w unloaded) old fun _ new =>
      (∀ p ∈ unloaded, ∃ err, .load p.1 p.2 err ∈ new) ∧ Loads new := by
  apply Adds.bind (restore_adds w unloaded.reverse)
  rintro failed new ⟨hall, honly⟩
  rw [← List.append_nil new] at hall honly
  split <;> exact Adds.pure ⟨fun p hp => hall p (List.mem_reverse.mpr hp), honly⟩

/-- An outcome that gives up: what was unloaded is asked back, and named. -/
structure Abandons (key : Str) (unloaded : List (Str × ℤ)) (o : LoadOutcome) (back : List Event) :
    Prop where
  model : o.model = key
  named : o.unloaded = unloaded.map Prod.fst
  asked : ∀ p ∈ unloaded, ∃ err, .load p.1 p.2 err ∈ back
  loads : Loads back

theorem abandonSwap_adds (unloaded : List (Str × ℤ)) (kind : Kind) (detail model : Str) :
    Adds (abandonSwap w unloaded kind detail model) old (Abandons model unloaded) := by
  rw [abandonSwap]
  split
  · rename_i hnil
    exact Adds.pure ⟨rfl, by simp [hnil], by simp [hnil], by simp [Loads]⟩
  · apply Adds.bind (restoreClause_adds w unloaded)
    rintro clause new ⟨hall, honly⟩
    exact Adds.pure ⟨rfl, rfl, by simpa using hall, by rwa [List.append_nil]⟩

/-- Who is resident is read again after a crash only. -/
theorem currentResidents_adds (residents : List Resident) (crashed : Bool) :
    Adds (currentResidents w residents crashed) old fun current reading =>
      Reads reading ∧ (crashed = true →
        reading = [.read] ∧ current = (w.models old.length).elim residents residentSnapshot) := by
  rw [currentResidents]
  split_ifs with h
  · exact ⟨[.read], rfl, by simp, fun _ => ⟨rfl, rfl⟩⟩
  · exact Adds.pure ⟨Reads.nil, fun hcrashed => absurd hcrashed h⟩

/-! ### The swap loop -/

/-- The instance the loop takes for a resident. -/
def Resident.victim (r : Resident) : Victim := ⟨r.key, r.instanceId, r.context, false⟩

/-- What the loop leaves, entered with what was unloaded before and the last load's result:
it hands both on, gives up at a resident that chats or does not go, or goes on without it. -/
inductive VacateTrail (key : Str) (want : ℤ) : List (Str × ℤ) → Except Str LoadInfo →
    LoadOutcome ⊕ Except Str LoadInfo × List (Str × ℤ) → List Event → Prop
  | handed (unloaded : List (Str × ℤ)) (result : Except Str LoadInfo) :
      VacateTrail key want unloaded result (.inr (result, unloaded)) []
  | chatting {unloaded : List (Str × ℤ)} {result : Except Str LoadInfo} (r : Resident)
      {o : LoadOutcome} {back : List Event} (h : Abandons key unloaded o back) :
      VacateTrail key want unloaded result (.inl o) (.claim r.key false :: back)
  | stuck {unloaded : List (Str × ℤ)} {result : Except Str LoadInfo} (r : Resident)
      {reads : List Event} (hreads : Reads reads) {o : LoadOutcome} {back : List Event}
      (h : Abandons key unloaded o back) :
      VacateTrail key want unloaded result (.inl o)
        (.claim r.key true :: .unload r.victim :: (reads ++ back))
  | next {unloaded : List (Str × ℤ)} {result result' : Except Str LoadInfo} (r : Resident)
      {reads : List Event} (hreads : Reads reads)
      {answer : LoadOutcome ⊕ Except Str LoadInfo × List (Str × ℤ)} {more : List Event}
      (h : VacateTrail key want (unloaded ++ [(r.key, r.context)]) result' answer more) :
      VacateTrail key want unloaded result answer
        (.claim r.key true :: .unload r.victim ::
          (reads ++ .gone r.victim :: .load key want (errorOf result') :: more))

theorem vacate_adds (key : Str) (want : ℤ) (residents : List Resident)
    (unloaded : List (Str × ℤ)) (result : Except Str LoadInfo) :
    Adds (vacate site w key want residents unloaded result) old
      (VacateTrail key want unloaded result) := by
  induction residents generalizing old unloaded result with
  | nil => exact Adds.pure (.handed unloaded result)
  | cons r rest ih =>
    cases result with
    | ok info => exact Adds.pure (.handed unloaded (.ok info))
    | error err =>
      rw [vacate]
      split_ifs
      · apply Adds.bind (unloadClaim_adds w r.key)
        rintro claimed _ ⟨rfl, -⟩
        cases claimed with
        | false =>
          apply Adds.bind (abandonSwap_adds w unloaded _ _ _)
          intro o back h
          exact Adds.pure (by simpa using .chatting r h)
        | true =>
          apply Adds.bind (unloadAndWait_adds site w r.victim)
          rintro uerr _ ⟨reads, hreads, rfl⟩
          cases uerr with
          | some uerr =>
            apply Adds.bind (abandonSwap_adds w unloaded _ _ _)
            intro o back h
            exact Adds.pure (by simpa using .stuck r hreads h)
          | none =>
            apply Adds.bind (loadInstance_adds w key want)
            rintro result _ rfl
            exact (ih _ result).mono fun answer more h => by simpa using .next r hreads h
      · exact Adds.pure (.handed unloaded (.error err))

/-! ### The reload -/

/-- The instance a reload takes. -/
def Entry.victim (entry : Entry) : Victim := ⟨entry.key, entry.inst, entry.window, false⟩

/-- What a reload leaves: the model chats; its instance does not go; the load fails, and the
old window is asked back; or the load goes through, and the model is waited for. -/
inductive ReloadTrail (entry : Entry) (want : ℤ) (o : LoadOutcome) : List Event → Prop
  | chatting : ReloadTrail entry want o [.claim entry.key false]
  | stuck {reads : List Event} (hreads : Reads reads) :
      ReloadTrail entry want o (.claim entry.key true :: .unload entry.victim :: reads)
  | failed {reads back : List Event} (err : Str) (hreads : Reads reads)
      (hback : ∃ err', .load entry.key entry.window err' ∈ back) (hloads : Loads back)
      (hnamed : entry.key <:+: o.detail) :
      ReloadTrail entry want o (.claim entry.key true :: .unload entry.victim ::
        (reads ++ .gone entry.victim :: .load entry.key want (some err) :: back))
  | seen {reads reads' : List Event} (hok : o.ok = true) (hreads : Reads reads)
      (hreads' : Reads reads') :
      ReloadTrail entry want o (.claim entry.key true :: .unload entry.victim ::
        (reads ++ .gone entry.victim :: .load entry.key want none ::
          (reads' ++ [.appeared entry.key true, .read])))
  | unseen {reads reads' : List Event} (hfailed : o.ok = false) (hnamed : entry.key <:+: o.detail)
      (hreads : Reads reads) (hreads' : Reads reads') :
      ReloadTrail entry want o (.claim entry.key true :: .unload entry.victim ::
        (reads ++ .gone entry.victim :: .load entry.key want none ::
          (reads' ++ [.appeared entry.key false])))

theorem reload_adds (entry : Entry) (want : ℤ) :
    Adds (reload site w entry want) old fun o new =>
      o.model = entry.key ∧ ReloadTrail entry want o new := by
  apply Adds.bind (unloadClaim_adds w entry.key)
  rintro claimed _ ⟨rfl, -⟩
  cases claimed with
  | false => exact Adds.pure ⟨rfl, .chatting⟩
  | true =>
    apply Adds.bind (unloadAndWait_adds site w entry.victim)
    rintro uerr _ ⟨reads, hreads, rfl⟩
    cases uerr with
    | some uerr => exact Adds.pure ⟨rfl, by simpa using .stuck hreads⟩
    | none =>
      apply Adds.bind (loadInstance_adds w entry.key want)
      rintro r _ rfl
      cases r with
      | error err =>
        apply Adds.bind (restore_adds w [(entry.key, entry.window)])
        rintro lost back ⟨hback, hloads⟩
        have hnamed : entry.key <:+: (reloadFailed entry.key err want entry.window lost).detail := by
          simp only [reloadFailed, List.append_assoc]
          exact ⟨txt "could not reload ", _, by rw [List.append_assoc]⟩
        refine Adds.pure ⟨rfl, ?_⟩
        simpa using .failed err hreads (by simpa using hback) hloads hnamed
      | ok info =>
        apply Adds.bind (waitLoaded_adds site w entry.key)
        rintro ok _ ⟨reads', hreads', rfl⟩
        cases ok with
        | true =>
          apply Adds.bind (confirmedContext_adds site w entry.key)
          rintro confirmed _ rfl
          exact Adds.pure ⟨rfl, by simpa using .seen rfl hreads hreads'⟩
        | false =>
          have hnamed : entry.key <:+: entry.key ++ txt " reload returned but it never appeared as loaded" :=
            (List.prefix_append entry.key _).isInfix
          exact Adds.pure ⟨rfl, by simpa using .unseen rfl hnamed hreads hreads'⟩

end AskFable.Lms

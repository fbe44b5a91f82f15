import AskFable.Lms.Effects

/-!
# What an unload rests on

Outside the requested model's own reload, an instance is asked to be unloaded on a memory
message or on a floor-context probe that loaded and was freed; the probe's own instance is
the exception. A probe that came back without proof must leave every resident alone, and
does unless its own detail reads as a memory message.
-/
namespace AskFable.Lms
open AskFable.Text AskFable.Journal

/-- The instance of the model that the floor-context probe loaded before. -/
def ByProbe (key : Str) (past : List Event) (v : Victim) : Prop :=
  v.floor = true ∧ v.key = key ∧ .load key FLOOR_CONTEXT none ∈ past

/-- A load of the model has failed with memory wording, or a probe of it loaded and was
freed. -/
def Evidence (site : Site) (past : List Event) (key : Str) : Prop :=
  (∃ context err, .load key context (some err) ∈ past ∧ looksMemory site err = true) ∨
    ∃ v, .gone v ∈ past ∧ ByProbe key past v

/-- Every request to unload stands where `P` holds of the journal before it. -/
def Unloads (log : List Event) (P : List Event → Victim → Prop) : Prop :=
  ∀ pre v post, log = pre ++ .unload v :: post → P pre v

/-- What the unloads of a call rest on. -/
structure Grounded (site : Site) (o : LoadOutcome) (log : List Event) : Prop where
  asked : swapPolicy site ≠ .auto → Unloads log (ByProbe o.model)
  evidence : swapPolicy site = .auto → Unloads log fun past v =>
    v.key = o.model ∨ Evidence site past o.model
  unproven : ∀ why, .probed false why ∈ log → ∀ v, .unload v ∈ log → v.floor = true

/-- The residents the call goes on with when step `n` is its next. -/
def residentsAt (w : World) (n : ℕ) : List Resident :=
  (w.models n).elim ((w.models 0).elim [] residentSnapshot) residentSnapshot

/-- There is no resident to unload at step `n`, or none that may be. -/
def Spared (site : Site) (w : World) (n : ℕ) : Prop :=
  swapPolicy site ≠ .auto ∨ residentsAt w 0 = [] ∨ residentsAt w n = [] ∨ w.chatting (n + 1) = true

/-- A probe comes back without proof only with a detail that does not read as a memory
message, or where nobody can be unloaded on it. -/
def Unmistaken (site : Site) (w : World) (log : List Event) : Prop :=
  ∀ pre why post, log = pre ++ .probed false why :: post →
    looksMemory site why = false ∨ Spared site w (pre.length + 1)

variable {site : Site} {a b log : List Event} {P Q : List Event → Victim → Prop}

theorem Unloads.mono (h : Unloads log P) (hPQ : ∀ past v, P past v → Q past v) : Unloads log Q :=
  fun pre v post hlog => hPQ pre v (h pre v post hlog)

theorem Unloads.of_not_mem (h : ∀ v, .unload v ∉ log) : Unloads log P := by
  rintro pre v post rfl
  exact absurd (by simp) (h v)

theorem Unloads.append (ha : Unloads a P) (hb : Unloads b fun past => P (a ++ past)) :
    Unloads (a ++ b) P := by
  intro pre v post h
  rcases split_append h with ⟨c, hc, -⟩ | ⟨c, rfl, hc⟩
  · exact ha pre v c hc
  · exact hb c v post hc

theorem Unloads.single {v : Victim} (h : P [] v) : Unloads [.unload v] P := by
  intro pre u post hlog
  cases pre with
  | nil =>
    injection (List.cons.inj hlog).1 with hv
    exact hv ▸ h
  | cons e pre => exact absurd (List.cons.inj hlog).2 (by simp)

theorem ByProbe.mono {key : Str} {v : Victim} (hab : a ⊆ b) (h : ByProbe key a v) :
    ByProbe key b v := ⟨h.1, h.2.1, hab h.2.2⟩

theorem Evidence.mono {key : Str} (hab : a ⊆ b) (h : Evidence site a key) : Evidence site b key := by
  rcases h with ⟨context, err, hload, herr⟩ | ⟨v, hgone, hprobe⟩
  · exact Or.inl ⟨context, err, hab hload, herr⟩
  · exact Or.inr ⟨v, hab hgone, hprobe.mono hab⟩

/-- No note of a probe. -/
def Unprobed (log : List Event) : Prop := ∀ proven why, .probed proven why ∉ log

@[simp] theorem unprobed_append : Unprobed (a ++ b) ↔ Unprobed a ∧ Unprobed b := by
  simp only [Unprobed, List.mem_append, not_or]
  exact ⟨fun h => ⟨fun p w => (h p w).1, fun p w => (h p w).2⟩, fun h p w => ⟨h.1 p w, h.2 p w⟩⟩

theorem Reads.unprobed (h : Reads log) : Unprobed log := fun _ _ hmem => nomatch h _ hmem

theorem Reads.not_unload (h : Reads log) (v : Victim) : .unload v ∉ log := fun hmem =>
  nomatch h _ hmem

theorem ProbeTrail.unprobed {key why : Str} {proven : Bool} (h : ProbeTrail key why proven log) :
    Unprobed log := by
  cases h with
  | failed => simp [Unprobed]
  | chatting => simp [Unprobed]
  | stuck hv hkey hreads =>
    exact unprobed_append.mpr ⟨by simp [Unprobed], hreads.unprobed⟩
  | freed hv hkey hreads =>
    exact unprobed_append.mpr ⟨unprobed_append.mpr ⟨by simp [Unprobed], hreads.unprobed⟩,
      by simp [Unprobed]⟩

/-- A probe unloads nothing but its own instance. -/
theorem ProbeTrail.unloads {key why : Str} {proven : Bool} (h : ProbeTrail key why proven log) :
    Unloads log (ByProbe key) := by
  have hown {v : Victim} (hv : v.floor = true) (hkey : v.key = key) :
      Unloads [.load key FLOOR_CONTEXT none, .read, .claim key true, .unload v] (ByProbe key) := by
    refine Unloads.append (a := [.load key FLOOR_CONTEXT none, .read, .claim key true])
      (.of_not_mem (by simp)) (.single ⟨hv, hkey, by simp⟩)
  cases h with
  | failed => exact .of_not_mem (by simp)
  | chatting => exact .of_not_mem (by simp)
  | stuck hv hkey hreads => exact (hown hv hkey).append (.of_not_mem hreads.not_unload)
  | freed hv hkey hreads =>
    exact ((hown hv hkey).append (.of_not_mem hreads.not_unload)).append (.of_not_mem (by simp))

theorem ProbeTrail.evidence {key why : Str} (h : ProbeTrail key why true log) :
    Evidence site log key := by
  cases h with
  | @freed v hv hkey reads hreads =>
    exact Or.inr ⟨v, by simp, hv, hkey, by simp⟩

/-- What the loads before any unload establish: memory wording or a proving probe where
memory is taken as proven, or a probe that came back without proof and whose detail is
read as the evidence. -/
inductive Grounds (site : Site) (key : Str) (a : Attempt) : List Event → Prop
  | evidence {log : List Event} (hunloads : Unloads log (ByProbe key))
      (hprobed : ∀ why, .probed false why ∉ log)
      (hproven : a.memoryProven = true → Evidence site log key) : Grounds site key a log
  | unproven {trail : List Event} {why : Str} (hunloads : Unloads trail (ByProbe key))
      (hprobed : Unprobed trail) (hmemory : a.memoryProven = looksMemory site why)
      (hcrashed : a.crashed = true)
      (hresult : ∀ err, a.result = .error err → looksEngineCrash site err = true)
      (hfailed : a.result.isOk = false) :
      Grounds site key a (trail ++ [.probed false why])

theorem Loads.not_unload (h : Loads log) (v : Victim) : .unload v ∉ log := by
  intro hmem
  obtain ⟨_, _, _, hload⟩ := h _ hmem
  nomatch hload

theorem Loads.unprobed (h : Loads log) : Unprobed log := by
  intro proven why hmem
  obtain ⟨_, _, _, hload⟩ := h _ hmem
  nomatch hload

variable (site) (w : World) {old : List Event}

theorem classify_grounds (old base : List Event) (key err : Str) (context attempted : ℤ)
    (hbase : Loads base) (hload : .load key context (some err) ∈ base) :
    Adds (classify site w key err attempted) old fun a new => Grounds site key a (base ++ new) := by
  have hquiet (a : Attempt) (hproven : a.memoryProven = looksMemory site err) :
      Grounds site key a (base ++ []) := by
    rw [List.append_nil]
    refine .evidence (.of_not_mem hbase.not_unload) (fun why => hbase.unprobed false why) ?_
    exact fun h => Or.inl ⟨context, err, hload, hproven ▸ h⟩
  rw [classify]
  split_ifs with hambiguous
  · simp only [Bool.and_eq_true] at hambiguous
    apply Adds.bind (probeCrashMemory_adds site w key)
    rintro ⟨proven, why⟩ _ ⟨trail, htrail, rfl⟩
    have hunloads : Unloads (base ++ trail) (ByProbe key) := by
      refine (Unloads.of_not_mem hbase.not_unload).append (htrail.unloads.mono fun past v h => ?_)
      exact h.mono (List.subset_append_right base past)
    have hunprobed : Unprobed (base ++ trail) :=
      unprobed_append.mpr ⟨hbase.unprobed, htrail.unprobed⟩
    refine Adds.pure ?_
    rw [List.append_nil, ← List.append_assoc]
    cases proven with
    | false =>
      refine .unproven hunloads hunprobed (by simp) hambiguous.1 ?_ rfl
      rintro _ ⟨⟩
      rw [List.append_assoc]
      exact looksEngineCrash_append site _ hambiguous.1
    | true =>
      have hevidence : Evidence site (base ++ trail) key :=
        htrail.evidence.mono (List.subset_append_right base trail)
      refine .evidence ?_ ?_ fun _ => hevidence.mono (List.subset_append_left _ _)
      · exact hunloads.append (.of_not_mem (by simp))
      · intro why' hmem
        rcases List.mem_append.mp hmem with hmem | hmem
        · exact hunprobed false why' hmem
        · simp at hmem
  · exact Adds.pure (hquiet _ rfl)
  · exact Adds.pure (hquiet _ rfl)

theorem firstLoads_grounds (key : Str) (want needed : ℤ) :
    Adds (firstLoads site w key want needed) old (Grounds site key) := by
  have hquiet {a : Attempt} {log : List Event} (hlog : Loads log)
      (hproven : a.memoryProven = true → Evidence site log key) : Grounds site key a log :=
    .evidence (.of_not_mem hlog.not_unload) (fun why => hlog.unprobed false why) hproven
  apply Adds.bind (loadInstance_adds w key want)
  rintro r _ rfl
  cases r with
  | ok info => exact Adds.pure (hquiet (by simp [Loads]) (by simp))
  | error err =>
    dsimp only
    split_ifs
    · apply Adds.bind (loadInstance_adds w key _)
      rintro r _ rfl
      cases r with
      | ok info =>
        refine Adds.pure (hquiet (by simp [Loads]) fun h => Or.inl ⟨want, err, by simp, h⟩)
      | error err' =>
        have hgrounds := classify_grounds site w (old ++ [Event.load key want (some err)] ++
            [Event.load key (min want needed) (some err')])
          [Event.load key want (some err), Event.load key (min want needed) (some err')] key err'
          (min want needed) (min want needed) (by simp [Loads]) (by simp)
        exact hgrounds.mono fun a new h => by simpa using h
    · have hgrounds := classify_grounds site w (old ++ [Event.load key want (some err)])
        [Event.load key want (some err)] key err want want (by simp [Loads]) (by simp)
      exact hgrounds.mono fun a new h => by simpa using h
    · exact Adds.pure (hquiet (by simp [Loads]) fun h => Or.inl ⟨want, err, by simp, h⟩)

/-- The swap loop does not probe. -/
theorem VacateTrail.unprobed {key : Str} {want : ℤ} {unloaded : List (Str × ℤ)}
    {result : Except Str LoadInfo} {answer : LoadOutcome ⊕ Except Str LoadInfo × List (Str × ℤ)}
    (h : VacateTrail key want unloaded result answer log) : Unprobed log := by
  induction h with
  | handed => simp [Unprobed]
  | chatting r h =>
    have hback := h.loads.unprobed
    simp only [Unprobed] at hback ⊢
    simp [hback]
  | stuck r hreads h =>
    have hwait := hreads.unprobed
    have hback := h.loads.unprobed
    simp only [Unprobed] at hwait hback ⊢
    simp [hwait, hback]
  | next r hreads h ih =>
    have hwait := hreads.unprobed
    simp only [Unprobed] at hwait ih ⊢
    simp [hwait, ih]

/-- An outcome of the swap loop is of the model. -/
theorem VacateTrail.model {key : Str} {want : ℤ} {unloaded : List (Str × ℤ)}
    {result : Except Str LoadInfo} {answer : LoadOutcome ⊕ Except Str LoadInfo × List (Str × ℤ)}
    (h : VacateTrail key want unloaded result answer log) :
    ∀ o, answer = .inl o → o.model = key := by
  induction h with
  | handed => intro o ho; cases ho
  | chatting r h => intro o ho; cases ho; exact h.model
  | stuck r hreads h => intro o ho; cases ho; exact h.model
  | next r hreads h ih => exact ih

/-- After a crash the loop's first move is to unload a resident, unless there is none or it
may not. -/
theorem vacate_unloads (key : Str) (want : ℤ) (residents : List Resident) {err : Str}
    (hcrash : looksEngineCrash site err = true) :
    Adds (vacate site w key want residents [] (.error err)) old fun _ new =>
      if residents = [] ∨ w.chatting old.length = true then ∀ v, .unload v ∉ new
      else ∃ v, .unload v ∈ new ∧ v.floor = false := by
  cases residents with
  | nil => exact Adds.pure (by simp)
  | cons r rest =>
    rw [vacate, if_pos (by simp [hcrash])]
    apply Adds.bind (unloadClaim_adds w r.key)
    rintro claimed _ ⟨rfl, hclaimed⟩
    cases hchat : w.chatting old.length with
    | true =>
      obtain rfl : claimed = false := by simp [hclaimed, hchat]
      apply Adds.bind (abandonSwap_adds w [] _ _ _)
      intro o new h
      refine Adds.pure ?_
      simpa using h.loads.not_unload
    | false =>
      obtain rfl : claimed = true := by simp [hclaimed, hchat]
      apply Adds.bind (unloadAndWait_adds site w _)
      rintro uerr _ ⟨reads, hreads, rfl⟩
      cases uerr with
      | some uerr =>
        apply Adds.bind (abandonSwap_adds w [] _ _ _)
        rintro o new -
        refine Adds.pure ?_
        simp
      | none =>
        apply Adds.bind (loadInstance_adds w key want)
        rintro result _ rfl
        refine (vacate_adds site w key want rest _ result).mono ?_
        rintro answer new -
        simp

/-- How the unloads of a call came about: only the probe's own; on grounds, with no probe
that came back without proof; or on a probe's detail that reads as a memory message. -/
inductive Course (site : Site) (w : World) (key : Str) : List Event → Prop
  | own {log : List Event} (hunloads : Unloads log (ByProbe key)) (hspared : Unmistaken site w log) :
      Course site w key log
  | founded {log : List Event} (hauto : swapPolicy site = .auto)
      (hprobed : ∀ why, .probed false why ∉ log)
      (hunloads : Unloads log fun past v => v.key = key ∨ Evidence site past key) :
      Course site w key log
  | mistaken {pre post : List Event} {why : Str} (hmemory : looksMemory site why = true)
      (hspared : ¬Spared site w (pre.length + 1)) {v : Victim} (hv : v.floor = false)
      (hunload : .unload v ∈ pre ++ .probed false why :: post) :
      Course site w key (pre ++ .probed false why :: post)

theorem unmistaken_of_unprobed (h : ∀ why, .probed false why ∉ log) : Unmistaken site w log := by
  rintro pre why post rfl
  exact absurd (by simp) (h why)

/-- Only one probe is noted. -/
theorem probed_inj (trail rest : List Event) {pre post : List Event} {why why' : Str}
    (htrail : Unprobed trail)
    (hrest : Unprobed rest)
    (h : trail ++ .probed false why :: rest = pre ++ .probed false why' :: post) :
    pre = trail ∧ why' = why := by
  rcases split_append h with ⟨c, rfl, -⟩ | ⟨c, rfl, hc⟩
  · exact absurd (by simp) (htrail false why')
  · cases c with
    | nil =>
      injection (List.cons.inj hc).1 with _ hwhy
      exact ⟨List.append_nil trail, hwhy.symm⟩
    | cons e c => exact absurd ((List.cons.inj hc).2 ▸ by simp) (hrest false why')

variable {site w} in
theorem Course.grounded_iff {o : LoadOutcome} (h : Course site w o.model log) :
    Grounded site o log ↔ Unmistaken site w log := by
  cases h with
  | own hunloads hspared =>
    refine iff_of_true ⟨fun _ => hunloads, fun _ => hunloads.mono fun _ _ h => Or.inl h.2.1, ?_⟩
      hspared
    intro why _ v hv
    obtain ⟨pre, post, rfl⟩ := List.append_of_mem hv
    exact (hunloads pre v post rfl).1
  | founded hauto hprobed hunloads =>
    refine iff_of_true ⟨fun hnever => absurd hauto hnever, fun _ => hunloads, ?_⟩
      (unmistaken_of_unprobed site w hprobed)
    exact fun why hwhy => absurd hwhy (hprobed why)
  | @mistaken pre post why hmemory hspared v hv hunload =>
    refine iff_of_false ?_ ?_
    · intro hgrounded
      have hfloor := hgrounded.unproven why (by simp) v hunload
      rw [hv] at hfloor
      nomatch hfloor
    · intro hunmistaken
      rcases hunmistaken _ _ _ rfl with hno | hyes
      · rw [hmemory] at hno
        nomatch hno
      · exact hspared hyes

theorem confirmLoad_quiet (key : Str) (want : ℤ) (residents : List Resident) (a : Attempt)
    (unloaded : List (Str × ℤ)) (info : LoadInfo) :
    Adds (confirmLoad site w key want residents a unloaded info) old fun o new =>
      o.model = key ∧ Unprobed new ∧ ∀ v, .unload v ∉ new := by
  apply Adds.bind (waitLoaded_adds site w key)
  rintro ok _ ⟨reads, hreads, rfl⟩
  have hprobed := hreads.unprobed
  have hunload := hreads.not_unload
  simp only [Unprobed] at hprobed ⊢
  cases ok with
  | true =>
    apply Adds.bind (modelsEntries_adds w)
    rintro after _ ⟨rfl, -⟩
    apply Adds.bind (confirmedContext_adds site w key)
    rintro confirmed _ rfl
    exact Adds.pure ⟨rfl, by simp [hprobed], by simp [hunload]⟩
  | false => exact Adds.pure ⟨rfl, by simp [hprobed], by simp [hunload]⟩

/-- What a swap adds: the reading of who is resident, the loop, and an ending that neither
probes nor unloads. -/
structure SwapTrail (key : Str) (residents : List Resident) (a : Attempt) (err : Str)
    (old : List Event) (o : LoadOutcome) (current : List Resident) (reading loop rest : List Event) :
    Prop where
  model : o.model = key
  reads : Reads reading
  crash : a.crashed = true →
    reading = [.read] ∧ current = (w.models old.length).elim residents residentSnapshot
  loop_probed : Unprobed loop
  loop_unloads : looksEngineCrash site err = true →
    if current = [] ∨ w.chatting (old ++ reading).length = true then ∀ v, .unload v ∉ loop
    else ∃ v, .unload v ∈ loop ∧ v.floor = false
  rest_probed : Unprobed rest
  rest_unloads : ∀ v, .unload v ∉ rest

theorem swap_adds (models : List Entry) (key : Str) (want : ℤ) (residents : List Resident)
    (a : Attempt) (err : Str) :
    Adds (swap site w models key want residents a err) old fun o new =>
      ∃ current reading loop rest, new = reading ++ (loop ++ rest) ∧
        SwapTrail site w key residents a err old o current reading loop rest := by
  apply Adds.bind (currentResidents_adds w residents a.crashed)
  rintro current reading ⟨hreads, hcurrent⟩
  have hfirst : Adds (vacate site w key want current [] (.error err)) (old ++ reading) fun _ new =>
      looksEngineCrash site err = true →
        if current = [] ∨ w.chatting (old ++ reading).length = true then ∀ v, .unload v ∉ new
        else ∃ v, .unload v ∈ new ∧ v.floor = false := by
    by_cases hcrash : looksEngineCrash site err = true
    · exact (vacate_unloads site w key want current hcrash).mono fun _ _ h _ => h
    · exact (vacate_adds site w key want current [] (.error err)).mono fun _ _ _ h => absurd h hcrash
  apply Adds.bind ((vacate_adds site w key want current [] (.error err)).and hfirst)
  rintro answer loop ⟨htrail, hunloads⟩
  have hend {o : LoadOutcome} {rest : List Event} (ho : o.model = key) (hrest : Unprobed rest)
      (hunload : ∀ v, .unload v ∉ rest) : ∃ current' reading' loop' rest',
        reading ++ (loop ++ rest) = reading' ++ (loop' ++ rest') ∧
          SwapTrail site w key residents a err old o current' reading' loop' rest' :=
    ⟨current, reading, loop, rest, rfl, ho, hreads, hcurrent, htrail.unprobed, hunloads, hrest, hunload⟩
  match answer with
  | .inl o => exact Adds.pure (hend (htrail.model o rfl) (by simp [Unprobed]) (by simp))
  | .inr (.ok info, unloaded) =>
    refine (confirmLoad_quiet site w key want current a unloaded info).mono ?_
    rintro o rest ⟨ho, hrest, hunload⟩
    exact hend ho hrest hunload
  | .inr (.error err', unloaded) =>
    dsimp only
    split_ifs
    · apply Adds.bind (restoreClause_adds w unloaded)
      rintro clause rest ⟨-, hloads⟩
      rw [← List.append_nil rest] at hloads
      exact Adds.pure (hend rfl hloads.unprobed hloads.not_unload)
    · exact Adds.pure (hend rfl (by simp [Unprobed]) (by simp))

theorem Unloads.behind {key : Str} (ha : ∀ v, .unload v ∉ a) (hb : Unloads b (ByProbe key)) :
    Unloads (a ++ b) (ByProbe key) :=
  (Unloads.of_not_mem ha).append (hb.mono fun past _ h => h.mono (List.subset_append_right a past))

/-- Unloads for room rest on what was established before the swap loop was entered. -/
theorem swap_course (models : List Entry) {entry : Entry} {want : ℤ} {a : Attempt} {err : Str}
    {base : List Event} (hmodels : w.models 0 = some models) (hauto : swapPolicy site = .auto)
    (hresidents : residentSnapshot models ≠ []) (hproven : a.memoryProven = true)
    (hresult : a.result = .error err) (hbase : Grounds site entry.key a base) :
    Adds (swap site w models entry.key want (residentSnapshot models) a err) (.read :: base)
      fun o new => o.model = entry.key ∧ Course site w entry.key (.read :: (base ++ new)) := by
  refine (swap_adds site w models entry.key want _ a err).mono ?_
  rintro o _ ⟨current, reading, loop, rest, rfl, h⟩
  refine ⟨h.model, ?_⟩
  have hafter : Unprobed (reading ++ (loop ++ rest)) :=
    unprobed_append.mpr ⟨h.reads.unprobed, unprobed_append.mpr ⟨h.loop_probed, h.rest_probed⟩⟩
  cases hbase with
  | evidence hunloads hprobed hevidence =>
    have hmono (past : List Event) : Evidence site (.read :: base ++ past) entry.key :=
      (hevidence hproven).mono fun e he => by simp [he]
    refine .founded hauto ?_ (Unloads.append (a := .read :: base) ?_ ?_)
    · intro why hmem
      simp only [List.mem_cons, reduceCtorEq, false_or, List.mem_append] at hmem
      rcases hmem with hmem | hmem
      · exact hprobed why hmem
      · exact hafter false why (by simpa using hmem)
    · exact (Unloads.behind (a := [.read]) (by simp) hunloads).mono fun _ _ h => Or.inl h.2.1
    · exact fun pre v post _ => Or.inr (hmono pre)
  | @unproven trail why hunloads hprobed hmemory hcrashed hcrash hfailed =>
    obtain ⟨rfl, hcurrent⟩ := h.crash hcrashed
    have hat : current = residentsAt w (trail.length + 2) := by
      simpa [residentsAt, hmodels] using hcurrent
    have hloop := h.loop_unloads (hcrash err hresult)
    rw [hmemory] at hproven
    rw [show .read :: (trail ++ [.probed false why] ++ ([.read] ++ (loop ++ rest))) =
      (.read :: trail) ++ .probed false why :: ([.read] ++ (loop ++ rest)) by simp]
    split_ifs at hloop with hnobody
    · refine .own (Unloads.behind (a := [.read]) (by simp) (hunloads.append (.of_not_mem ?_))) ?_
      · intro v hmem
        have := hloop v
        have := h.rest_unloads v
        simp_all
      · intro pre why' post hlog
        obtain ⟨rfl, rfl⟩ := probed_inj (.read :: trail) _ (by simpa [Unprobed] using hprobed) hafter hlog
        refine Or.inr (Or.inr (Or.inr ?_))
        rw [hat] at hnobody
        simpa using hnobody
    · obtain ⟨v, hmem, hv⟩ := hloop
      refine .mistaken hproven ?_ hv (by simp [hmem])
      rintro (hno | hno | hno)
      · exact hno hauto
      · exact hresidents (by simpa [residentsAt, hmodels] using hno)
      · exact hnobody (by rw [hat]; simpa using hno)

theorem loadBeside_course (models : List Entry) (entry : Entry) (est want : ℤ)
    (hmodels : w.models 0 = some models) :
    Adds (loadBeside site w models entry est want) [.read] fun o new =>
      o.model = entry.key ∧ Course site w entry.key (.read :: new) := by
  have hquiet {log : List Event} (hlog : Unloads log (ByProbe entry.key))
      (hprobed : ∀ why, .probed false why ∉ log) : Course site w entry.key (.read :: log) := by
    refine .own (Unloads.behind (a := [.read]) (by simp) hlog) (unmistaken_of_unprobed site w ?_)
    simpa using hprobed
  rw [loadBeside]
  generalize (if w.monitors = true then w.gpu else Gpu.absent) = gpu
  generalize (if w.monitors = true then roomVerdict entry.size gpu else .unknown) = verdict
  split_ifs
  · exact Adds.pure ⟨rfl, hquiet (.of_not_mem (by simp)) (by simp)⟩
  · exact Adds.pure ⟨rfl, hquiet (.of_not_mem (by simp)) (by simp)⟩
  · apply Adds.bind (firstLoads_grounds site w entry.key want _)
    intro a base hbase
    cases hresult : a.result with
    | ok info =>
      refine (confirmLoad_quiet site w entry.key want _ a [] info).mono ?_
      rintro o new ⟨hmodel, hprobed, hunload⟩
      refine ⟨hmodel, ?_⟩
      cases hbase with
      | evidence hunloads hprobed' hproven =>
        refine hquiet (hunloads.append (.of_not_mem hunload)) fun why hmem => ?_
        exact (List.mem_append.mp hmem).elim (hprobed' why) (hprobed false why)
      | unproven hunloads hprobed' hmemory hcrashed hcrash hfailed =>
        rw [hresult] at hfailed
        exact Bool.noConfusion hfailed
    | error err =>
      dsimp only
      split_ifs with hswap
      · obtain ⟨hproven, hresidents, hauto⟩ := hswap
        exact swap_course site w models hmodels hauto hresidents hproven hresult hbase
      · refine Adds.pure ⟨rfl, ?_⟩
        rw [List.append_nil]
        cases hbase with
        | evidence hunloads hprobed hproven => exact hquiet hunloads hprobed
        | @unproven trail why hunloads hprobed hmemory hcrashed hcrash hfailed =>
          refine .own (Unloads.behind (a := [.read]) (by simp)
            (hunloads.append (.of_not_mem (by simp)))) ?_
          intro pre why' post hlog
          obtain ⟨rfl, rfl⟩ := probed_inj (.read :: trail) []
            (by simpa [Unprobed] using hprobed) (by simp [Unprobed]) hlog
          by_cases hwhy : looksMemory site why' = true
          · rw [hmemory] at hswap
            refine Or.inr ?_
            by_cases hauto : swapPolicy site = .auto
            · refine Or.inr (Or.inl ?_)
              simpa [residentsAt, hmodels, hwhy, hauto] using hswap
            · exact Or.inl hauto
          · exact Or.inl (by simpa using hwhy)

/-- A reload does not probe, and unloads the requested model only. -/
theorem ReloadTrail.quiet {entry : Entry} {want : ℤ} {o : LoadOutcome}
    (h : ReloadTrail entry want o log) :
    Unprobed log ∧ Unloads log fun _ v => v.key = entry.key := by
  have hown {rest : List Event} (hprobed : Unprobed rest) (hrest : ∀ u, Event.unload u ∉ rest) :
      Unprobed (Event.claim entry.key true :: Event.unload entry.victim :: rest) ∧
        Unloads ([Event.claim entry.key true] ++ ([Event.unload entry.victim] ++ rest)) fun _ u =>
          u.key = entry.key := by
    refine ⟨by simpa [Unprobed] using hprobed, (Unloads.of_not_mem (by simp)).append ?_⟩
    exact (Unloads.single rfl).append (.of_not_mem hrest)
  cases h with
  | chatting => exact ⟨by simp [Unprobed], .of_not_mem (by simp)⟩
  | stuck hreads => exact hown hreads.unprobed hreads.not_unload
  | failed err hreads hback hloads hnamed =>
    refine hown (unprobed_append.mpr ⟨hreads.unprobed, ?_⟩) ?_
    · simpa [Unprobed] using hloads.unprobed
    · simp [hreads.not_unload, hloads.not_unload]
  | seen hok hreads hreads' =>
    refine hown (unprobed_append.mpr ⟨hreads.unprobed, ?_⟩) ?_
    · simpa [Unprobed] using hreads'.unprobed
    · simp [hreads.not_unload, hreads'.not_unload]
  | unseen hfailed hnamed hreads hreads' =>
    refine hown (unprobed_append.mpr ⟨hreads.unprobed, ?_⟩) ?_
    · simpa [Unprobed] using hreads'.unprobed
    · simp [hreads.not_unload, hreads'.not_unload]

theorem ensureLoadedLocked_course (model : Str) (est : ℤ) :
    Adds (ensureLoadedLocked site w model est) [] fun o new => Course site w o.model new := by
  apply Adds.bind (modelsEntries_adds w)
  rintro models _ ⟨rfl, hmodels⟩
  have hquiet (key : Str) : Course site w key ([Event.read] ++ []) :=
    .own (.of_not_mem (by simp)) (unmistaken_of_unprobed site w (by simp))
  cases models with
  | none => exact Adds.pure (hquiet _)
  | some models =>
    dsimp only
    cases findModel site models model with
    | none => exact Adds.pure (hquiet _)
    | some entry =>
      dsimp only
      cases refusal site entry est with
      | some o => exact Adds.pure (hquiet _)
      | none =>
        dsimp only
        split_ifs with hloaded hfits hauto
        · exact Adds.pure (hquiet _)
        · exact Adds.pure (hquiet _)
        · refine (reload_adds site w entry _).mono ?_
          rintro o new ⟨hmodel, htrail⟩
          obtain ⟨hprobed, hunloads⟩ := htrail.quiet
          refine .founded (not_not.mp hauto) (by simpa using hprobed false) ?_
          exact (Unloads.of_not_mem (by simp)).append (hunloads.mono fun past v hv =>
            Or.inl (hv.trans hmodel.symm))
        · refine (loadBeside_course site w models entry est _ hmodels.symm).mono ?_
          rintro o new ⟨hmodel, h⟩
          rw [hmodel]
          exact h

/-- An unload rests on what it should, exactly where a floor-context probe that came back
without proof has no detail that reads as a memory message, or finds nobody to unload. -/
theorem unloads_rest_on_evidence (model : Str) (est : ℤ) :
    Grounded site (ensureLoadedLocked site w model est []).1
        (ensureLoadedLocked site w model est []).2 ↔
      Unmistaken site w (ensureLoadedLocked site w model est []).2 :=
  (ensureLoadedLocked_course site w model est).run.grounded_iff

/-- The engine crashes on `b` at any window but the floor's, and what the server says when
it does not free the floor instance mentions VRAM. -/
def stuckProbe : World where
  monitors := false
  gpu := Gpu.absent
  models n := some [⟨txt "a", txt "llm", none, none, decide (n < 11), none, some 4096⟩,
    ⟨txt "b", txt "llm", none, none, decide (3 < n), none, none⟩]
  load n :=
    if n < 3 then .error (.http 500 (txt "model_load_failed: exited before becoming healthy") [])
    else .ok ⟨none, none⟩
  unload n := if n < 7 then some (.http 500 (txt "vram busy") []) else none
  chatting _ := false
  polls _ := 0

theorem stuck_probe_unloads_resident :
    ¬∀ (site : Site) (w : World) (model : Str) (est : ℤ),
      Grounded site (ensureLoadedLocked site w model est []).1
        (ensureLoadedLocked site w model est []).2 := by
  intro h
  have hgrounded := h (.ascii (txt "auto")) stuckProbe (txt "b") 2000
  have hfloor := hgrounded.unproven (txt ("b loaded at floor context but could not be freed " ++
    "again: could not unload b: HTTP 500: vram busy")) (by decide +kernel)
    ⟨txt "a", txt "a", 4096, false⟩ (by decide +kernel)
  nomatch hfloor

end AskFable.Lms

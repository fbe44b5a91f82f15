import AskFable.Lms.Effects

/-!
# The window of every load

Each load request of a call, followed from where its window comes from: the one wanted, the
reduced one, the floor of the probe, and those of residents that are put back. The first
three are positive and within the model's maximum; the last are what the catalog reported,
and 0 where it reported none, which the request then leaves out.
-/
namespace AskFable.Lms
open AskFable.Text AskFable.Journal

/-- The `context_length` of a load request. -/
def sentContext (context : ℤ) : Option ℤ := if context = 0 then none else some context

variable (site : Site) (w : World) {old : List Event}

/-! ### What is sent -/

/-- Every load of the journal is for a model and a window that are all right. -/
def Sends (P : Str → ℤ → Prop) (log : List Event) : Prop :=
  ∀ key context err, .load key context err ∈ log → P key context

section
variable {P : Str → ℤ → Prop}

@[simp] theorem sends_nil : Sends P [] := by simp [Sends]

@[simp] theorem sends_append {a b : List Event} : Sends P (a ++ b) ↔ Sends P a ∧ Sends P b := by
  simp only [Sends, List.mem_append, or_imp, forall_and]

@[simp] theorem sends_cons {e : Event} {log : List Event} :
    Sends P (e :: log) ↔ (match e with | .load key context _ => P key context | _ => True) ∧
      Sends P log := by
  rw [← List.singleton_append, sends_append]
  refine and_congr_left fun _ => ?_
  cases e with
  | load key context err =>
    refine ⟨fun h => h key context err List.mem_cons_self, fun h key' context' err' hmem => ?_⟩
    injection List.mem_singleton.mp hmem with hkey hcontext
    rwa [hkey, hcontext]
  | _ => simp [Sends]

theorem Reads.sends {log : List Event} (h : Reads log) : Sends P log :=
  fun _ _ _ hmem => nomatch h _ hmem

theorem ProbeTrail.sends {key why : Str} {proven : Bool} {log : List Event}
    (h : ProbeTrail key why proven log) (hfloor : P key FLOOR_CONTEXT) : Sends P log := by
  cases h with
  | failed => simpa using hfloor
  | chatting => simpa using hfloor
  | stuck hv hkey hreads => simpa [hreads.sends] using hfloor
  | freed hv hkey hreads => simpa [hreads.sends] using hfloor

theorem restore_sends {unloaded : List (Str × ℤ)} (h : ∀ p ∈ unloaded, P p.1 p.2) :
    Adds (restore w unloaded) old fun _ new => Sends P new := by
  induction unloaded generalizing old with
  | nil => exact Adds.pure sends_nil
  | cons p rest ih =>
    obtain ⟨hp, hrest⟩ := List.forall_mem_cons.mp h
    apply Adds.bind (loadInstance_adds w p.1 p.2)
    rintro r _ rfl
    apply Adds.bind (ih hrest)
    intro failed new hnew
    exact Adds.pure (by simpa [hnew] using hp)

theorem restoreClause_sends {unloaded : List (Str × ℤ)} (h : ∀ p ∈ unloaded, P p.1 p.2) :
    Adds (restoreClause w unloaded) old fun _ new => Sends P new := by
  apply Adds.bind (restore_sends w fun p hp => h p (List.mem_reverse.mp hp))
  intro failed new hnew
  split <;> exact Adds.pure (by simpa using hnew)

theorem abandonSwap_sends {unloaded : List (Str × ℤ)} (h : ∀ p ∈ unloaded, P p.1 p.2) (kind : Kind)
    (detail model : Str) :
    Adds (abandonSwap w unloaded kind detail model) old fun _ new => Sends P new := by
  rw [abandonSwap]
  split
  · exact Adds.pure sends_nil
  · apply Adds.bind (restoreClause_sends w h)
    intro clause new hnew
    exact Adds.pure (by simpa using hnew)

theorem classify_sends (key err : Str) (attempted : ℤ)
    (hfloor : FLOOR_CONTEXT < attempted → P key FLOOR_CONTEXT) :
    Adds (classify site w key err attempted) old fun _ new => Sends P new := by
  rw [classify]
  split_ifs with hcrash hlarge
  · apply Adds.bind (probeCrashMemory_adds site w key)
    rintro r _ ⟨trail, htrail, rfl⟩
    exact Adds.pure (by simpa using htrail.sends (hfloor hlarge))
  · exact Adds.pure sends_nil
  · exact Adds.pure sends_nil

theorem firstLoads_sends (key : Str) (want needed : ℤ) (hwant : P key want)
    (hneeded : P key (min want needed)) (hfloor : FLOOR_CONTEXT < want → P key FLOOR_CONTEXT) :
    Adds (firstLoads site w key want needed) old fun _ new => Sends P new := by
  apply Adds.bind (loadInstance_adds w key want)
  rintro r _ rfl
  cases r with
  | ok info => exact Adds.pure (by simpa using hwant)
  | error err =>
    dsimp only
    split_ifs
    · apply Adds.bind (loadInstance_adds w key _)
      rintro r _ rfl
      cases r with
      | ok info => exact Adds.pure (by simpa using ⟨hwant, hneeded⟩)
      | error err =>
        refine (classify_sends site w key err _ fun hlarge => hfloor (by omega)).mono ?_
        intro a new hnew
        simpa [hnew] using ⟨hwant, hneeded⟩
    · refine (classify_sends site w key err _ hfloor).mono fun a new hnew => ?_
      simpa [hnew] using hwant
    · exact Adds.pure (by simpa using hwant)

/-- The loop asks for the model it loads, and gives back residents it has unloaded. -/
theorem vacate_sends {key : Str} {want : ℤ} (hwant : P key want) (residents : List Resident)
    (unloaded : List (Str × ℤ)) (result : Except Str LoadInfo)
    (hresidents : ∀ r ∈ residents, P r.key r.context) (hunloaded : ∀ p ∈ unloaded, P p.1 p.2) :
    Adds (vacate site w key want residents unloaded result) old fun answer new =>
      Sends P new ∧ ∀ result' unloaded', answer = .inr (result', unloaded') →
        ∀ p ∈ unloaded', P p.1 p.2 := by
  have hkeep {r : Except Str LoadInfo} {l : List (Str × ℤ)} (hl : ∀ p ∈ l, P p.1 p.2) :
      ∀ result' unloaded', (Sum.inr (r, l) : LoadOutcome ⊕ _) = .inr (result', unloaded') →
        ∀ p ∈ unloaded', P p.1 p.2 := by
    rintro result' unloaded' heq
    obtain ⟨-, rfl⟩ := Prod.mk.inj (Sum.inr.inj heq)
    exact hl
  induction residents generalizing old unloaded result with
  | nil => exact Adds.pure ⟨sends_nil, hkeep hunloaded⟩
  | cons r rest ih =>
    obtain ⟨hr, hrest⟩ := List.forall_mem_cons.mp hresidents
    cases result with
    | ok info => exact Adds.pure ⟨sends_nil, hkeep hunloaded⟩
    | error err =>
      rw [vacate]
      split_ifs
      · apply Adds.bind (unloadClaim_adds w r.key)
        rintro claimed _ ⟨rfl, -⟩
        cases claimed with
        | false =>
          apply Adds.bind (abandonSwap_sends w hunloaded _ _ _)
          intro o back hback
          exact Adds.pure ⟨by simpa using hback, by simp⟩
        | true =>
          apply Adds.bind (unloadAndWait_adds site w r.victim)
          rintro uerr _ ⟨reads, hreads, rfl⟩
          cases uerr with
          | some uerr =>
            apply Adds.bind (abandonSwap_sends w hunloaded _ _ _)
            intro o back hback
            exact Adds.pure ⟨by simpa [hreads.sends] using hback, by simp⟩
          | none =>
            apply Adds.bind (loadInstance_adds w key want)
            rintro result _ rfl
            have hboth : ∀ p ∈ unloaded ++ [(r.key, r.context)], P p.1 p.2 := by
              simpa [or_imp, forall_and] using ⟨fun a b => hunloaded (a, b), hr⟩
            refine (ih _ result hrest hboth).mono fun answer more h => ⟨?_, h.2⟩
            simpa [hreads.sends, h.1] using hwant
      · exact Adds.pure ⟨sends_nil, hkeep hunloaded⟩

theorem confirmLoad_sends (key : Str) (want : ℤ) (residents : List Resident) (a : Attempt)
    (unloaded : List (Str × ℤ)) (info : LoadInfo) :
    Adds (confirmLoad site w key want residents a unloaded info) old fun _ new => Sends P new := by
  apply Adds.bind (waitLoaded_adds site w key)
  rintro ok _ ⟨reads, hreads, rfl⟩
  cases ok with
  | true =>
    apply Adds.bind (modelsEntries_adds w)
    rintro after _ ⟨rfl, -⟩
    apply Adds.bind (confirmedContext_adds site w key)
    rintro confirmed _ rfl
    exact Adds.pure (by simp [hreads.sends])
  | false => exact Adds.pure (by simp [hreads.sends])

theorem reload_sends (entry : Entry) (want : ℤ) (hwant : P entry.key want)
    (hwindow : P entry.key entry.window) :
    Adds (reload site w entry want) old fun _ new => Sends P new := by
  apply Adds.bind (unloadClaim_adds w entry.key)
  rintro claimed _ ⟨rfl, -⟩
  cases claimed with
  | false => exact Adds.pure (by simp)
  | true =>
    apply Adds.bind (unloadAndWait_adds site w entry.victim)
    rintro uerr _ ⟨reads, hreads, rfl⟩
    cases uerr with
    | some uerr => exact Adds.pure (by simp [hreads.sends])
    | none =>
      apply Adds.bind (loadInstance_adds w entry.key want)
      rintro r _ rfl
      cases r with
      | error err =>
        have hgave : ∀ p ∈ [(entry.key, entry.window)], P p.1 p.2 := by simpa
        apply Adds.bind (restore_sends w hgave)
        intro lost back hback
        exact Adds.pure (by simpa [hreads.sends, hback] using hwant)
      | ok info =>
        apply Adds.bind (waitLoaded_adds site w entry.key)
        rintro ok _ ⟨reads', hreads', rfl⟩
        cases ok with
        | true =>
          apply Adds.bind (confirmedContext_adds site w entry.key)
          rintro confirmed _ rfl
          exact Adds.pure (by simpa [hreads.sends, hreads'.sends] using hwant)
        | false => exact Adds.pure (by simpa [hreads.sends, hreads'.sends] using hwant)

end

theorem reload_extends (entry : Entry) (want : ℤ) (old : List Event) :
    old <+: (reload site w entry want old).2 :=
  (reload_sends (P := fun _ _ => True) site w entry want trivial trivial).extends_old

/-! ### The windows asked for -/

theorem contextCeiling_pos (h : contextCeiling site ≠ 0) : 0 < contextCeiling site := by
  unfold contextCeiling at h ⊢
  split at h
  · omega
  · exact absurd rfl h

theorem desiredContext_pos {est : ℤ} (hest : 0 ≤ est) (maxContext : ℤ) :
    0 < desiredContext site est maxContext := by
  have hneeded : 0 < neededContext est := by
    unfold neededContext MIN_OUTPUT_TOKENS CONTEXT_MARGIN
    omega
  have hceiling := contextCeiling_pos site
  simp only [desiredContext]
  split_ifs with hzero hmax hmax
  · have := hceiling hzero
    omega
  · have := hceiling hzero
    omega
  · omega
  · omega

theorem desiredContext_le {est maxContext : ℤ} (h : 0 < maxContext) :
    desiredContext site est maxContext ≤ maxContext := by
  simp only [desiredContext]
  split_ifs <;> omega

/-- A window that the request carries, positive and, for the requested model, within the
maximum it reports. -/
def Explicit (entry : Entry) (key : Str) (context : ℤ) : Prop :=
  (∃ c, sentContext context = some c ∧ 0 < c) ∧
    (key = entry.key → entry.maxContext.getD 0 ≠ 0 → context ≤ entry.maxContext.getD 0)

theorem explicit_iff (entry : Entry) (key : Str) (context : ℤ) :
    Explicit entry key context ↔ 0 < context ∧
      (key = entry.key → entry.maxContext.getD 0 ≠ 0 → context ≤ entry.maxContext.getD 0) := by
  refine and_congr_left fun _ => ?_
  unfold sentContext
  split_ifs with hzero
  · simp [hzero]
  · simp

/-- Every load of a call carries its window; no load is sent where the catalog does not have
the requested model. -/
def SendsExplicitly (models : Option (List Entry)) (model : Str) (log : List Event) : Prop :=
  Sends (fun key context => ∃ ms entry, models = some ms ∧ findModel site ms model = some entry ∧
    Explicit entry key context) log

/-- A build of the server, by the entries it lists. -/
def Serves (build : Entry → Prop) : Prop :=
  ∀ n models, w.models n = some models → ∀ m ∈ models, build m

/-- A swap can give back nothing but windows that were reported, where the policy allows it
at all: a build that the call may load from reports, for a resident model that is reloaded, no
negative window, and, where another chat model is resident, for every resident chat model a
window that is positive, and within its maximum if it is the requested one. -/
def Reported (build : Entry → Prop) (model : Str) (est : ℤ) : Prop :=
  swapPolicy site = .auto → ∀ models entry, (∀ m ∈ models, build m) →
    findModel site models model = some entry → refusal site entry est = none →
      if entry.loaded then 0 ≤ entry.window
      else residentSnapshot models ≠ [] → ∀ m, build m → m.loaded = true → isChat m = true →
        Explicit entry m.key m.window

/-- The windows of the loads that are for the requested model itself. -/
theorem admitted_windows {entry : Entry} {est : ℕ} (h : refusal site entry est = none) :
    let want := desiredContext site est (entry.maxContext.getD 0)
    Explicit entry entry.key want ∧
      Explicit entry entry.key (min want (neededContext est)) ∧
      (FLOOR_CONTEXT < want → Explicit entry entry.key FLOOR_CONTEXT) ∧
      (0 ≤ entry.window → entry.window ≠ 0 → entry.window < neededContext est →
        Explicit entry entry.key entry.window) := by
  intro want
  have hpos : 0 < want := desiredContext_pos site (Int.natCast_nonneg est) _
  have hneeded : 0 < neededContext est := by
    unfold neededContext MIN_OUTPUT_TOKENS CONTEXT_MARGIN
    omega
  have hmax : entry.maxContext.getD 0 ≠ 0 → neededContext est ≤ entry.maxContext.getD 0 := by
    intro hreported
    by_contra hsmall
    simp only [refusal] at h
    split_ifs at h with hchat hover
    exact hover ⟨hreported, by omega⟩
  have hwant : entry.maxContext.getD 0 ≠ 0 → want ≤ entry.maxContext.getD 0 := fun hreported =>
    desiredContext_le site (by have := hmax hreported; omega)
  simp only [explicit_iff, true_implies]
  refine ⟨⟨hpos, hwant⟩, ⟨by omega, fun hr => ?_⟩, fun hfloor => ⟨by decide, fun hr => ?_⟩,
    fun hwindow hzero hsmall => ⟨by omega, fun hr => ?_⟩⟩
  · have := hwant hr
    omega
  · have := hwant hr
    omega
  · have := hmax hr
    omega

theorem currentResidents_known {residents : List Resident} {P : Resident → Prop}
    (hresidents : ∀ r ∈ residents, P r)
    (hfresh : ∀ models, w.models old.length = some models → ∀ r ∈ residentSnapshot models, P r)
    (crashed : Bool) :
    Adds (currentResidents w residents crashed) old fun current reading =>
      Reads reading ∧ ∀ r ∈ current, P r := by
  rw [currentResidents]
  split_ifs
  · apply Adds.bind (modelsEntries_adds w)
    rintro fresh _ ⟨rfl, hmodels⟩
    refine Adds.pure ⟨by simp, ?_⟩
    cases fresh with
    | none => exact hresidents
    | some models => exact hfresh models hmodels.symm
  · exact Adds.pure ⟨Reads.nil, hresidents⟩

theorem swap_sends {P : Str → ℤ → Prop} (models : List Entry) {key : Str} {want : ℤ}
    (hwant : P key want) {residents : List Resident} (a : Attempt) (err : Str)
    (hresidents : ∀ r ∈ residents, P r.key r.context)
    (hfresh : ∀ models, w.models old.length = some models → ∀ r ∈ residentSnapshot models,
      P r.key r.context) :
    Adds (swap site w models key want residents a err) old fun _ new => Sends P new := by
  apply Adds.bind (currentResidents_known w hresidents hfresh a.crashed)
  rintro current reading ⟨hreads, hcurrent⟩
  apply Adds.bind (vacate_sends site w hwant current [] (.error err) hcurrent (by simp))
  rintro answer loop ⟨hloop, hunloaded⟩
  match answer with
  | .inl o => exact Adds.pure (by simpa [hreads.sends] using hloop)
  | .inr (.ok info, unloaded) =>
    refine (confirmLoad_sends (P := P) site w key want current a unloaded info).mono ?_
    intro o rest hrest
    simpa [hreads.sends, hloop] using hrest
  | .inr (.error err', unloaded) =>
    dsimp only
    split_ifs
    · apply Adds.bind (restoreClause_sends w (hunloaded _ _ rfl))
      intro clause rest hrest
      exact Adds.pure (by simpa [hreads.sends, hloop] using hrest)
    · exact Adds.pure (by simpa [hreads.sends] using hloop)

theorem swap_extends (models : List Entry) (key : Str) (want : ℤ) (residents : List Resident)
    (a : Attempt) (err : Str) (old : List Event) :
    old <+: (swap site w models key want residents a err old).2 :=
  (swap_sends (P := fun _ _ => True) site w models trivial a err (fun _ _ => trivial)
    fun _ _ _ _ => trivial).extends_old

/-- A load beside the residents asks for its model, and gives back what a catalog listed that was
read at its beginning or, after loads of its own, later. -/
theorem loadBeside_sends {P : Str → ℤ → Prop} {models : List Entry} {entry : Entry} {est want : ℤ}
    (hwant : P entry.key want) (hneeded : P entry.key (min want (neededContext est)))
    (hfloor : FLOOR_CONTEXT < want → P entry.key FLOOR_CONTEXT)
    (hresidents : swapPolicy site = .auto → residentSnapshot models ≠ [] →
      (∀ r ∈ residentSnapshot models, P r.key r.context) ∧
      ∀ new ms, Sends P new → old ++ new <+: (loadBeside site w models entry est want old).2 →
        w.models (old ++ new).length = some ms → ∀ r ∈ residentSnapshot ms, P r.key r.context) :
    Adds (loadBeside site w models entry est want) old fun _ new => Sends P new := by
  simp only [loadBeside] at hresidents ⊢
  generalize (if w.monitors = true then w.gpu else Gpu.absent) = gpu at hresidents ⊢
  generalize (if w.monitors = true then roomVerdict entry.size gpu else .unknown) = verdict
    at hresidents ⊢
  split_ifs at hresidents ⊢
  · exact Adds.pure sends_nil
  · exact Adds.pure sends_nil
  · apply Adds.bind_eq (firstLoads_sends site w entry.key _ _ hwant hneeded hfloor)
    intro a new hfirst hnew
    rw [bind_apply, hfirst] at hresidents
    cases hresult : a.result with
    | ok info =>
      refine (confirmLoad_sends (P := P) site w entry.key _ _ a [] info).mono ?_
      intro o rest hrest
      simpa [hnew] using hrest
    | error err =>
      dsimp only
      split_ifs with hswap
      · obtain ⟨hlisted, hfresh⟩ := hresidents hswap.2.2 hswap.2.1
        simp only [hresult, if_pos hswap] at hfresh
        refine (swap_sends site w models hwant a err hlisted fun ms =>
          hfresh new ms hnew (swap_extends site w models entry.key want _ a err _)).mono ?_
        intro o rest hrest
        simpa [hnew] using hrest
      · exact Adds.pure (by simpa using hnew)

theorem loadBeside_extends (models : List Entry) (entry : Entry) (est want : ℤ)
    (old : List Event) : old <+: (loadBeside site w models entry est want old).2 :=
  (loadBeside_sends (P := fun _ _ => True) site w trivial trivial (fun _ => trivial)
    fun _ _ => ⟨fun _ _ => trivial, fun _ _ _ _ _ _ _ => trivial⟩).extends_old

/-- Where the build reports what a swap gives back, every load carries its window. -/
theorem ensureLoadedLocked_sends {build : Entry → Prop} (hserves : Serves w build) (model : Str)
    (est : ℕ) (h : Reported site build model est) :
    Adds (ensureLoadedLocked site w model est) [] fun _ new =>
      SendsExplicitly site (w.models 0) model new := by
  apply Adds.bind (modelsEntries_adds w)
  rintro models _ ⟨rfl, hread⟩
  rw [List.length_nil] at hread
  rw [← hread]
  cases models with
  | none => exact Adds.pure (by simp [SendsExplicitly])
  | some models =>
    dsimp only
    cases hfind : findModel site models model with
    | none => exact Adds.pure (by simp [SendsExplicitly])
    | some entry =>
      dsimp only
      have hlift {log : List Event} (hlog : Sends (Explicit entry) log) :
          SendsExplicitly site (some models) model ([Event.read] ++ log) := by
        rw [SendsExplicitly, sends_append]
        exact ⟨by simp, fun key context err hmem =>
          ⟨models, entry, rfl, hfind, hlog key context err hmem⟩⟩
      have hmodels := hserves 0 models hread.symm
      cases hadmitted : refusal site entry est with
      | some o => exact Adds.pure (by simp [SendsExplicitly])
      | none =>
        have hbuild := fun hauto => h hauto models entry hmodels hfind hadmitted
        dsimp only
        split_ifs with hloaded hfits hauto
        · exact Adds.pure (by simp [SendsExplicitly])
        · exact Adds.pure (by simp [SendsExplicitly])
        · have hwindow := hbuild (not_not.mp hauto)
          rw [if_pos hloaded] at hwindow
          rw [not_or, Int.not_le] at hfits
          obtain ⟨hwant, -, -, hkept⟩ := admitted_windows site hadmitted
          exact (reload_sends site w entry _ hwant (hkept hwindow hfits.1 hfits.2)).mono
            fun o new hnew => hlift hnew
        · obtain ⟨hwant, hneeded, hfloor, -⟩ := admitted_windows site hadmitted
          refine (loadBeside_sends site w hwant hneeded hfloor fun hauto hne => ?_).mono
            fun o new hnew => hlift hnew
          have hresidents := hbuild hauto
          rw [if_neg hloaded] at hresidents
          have hall (ms : List Entry) (hms : ∀ m ∈ ms, build m) :
              ∀ r ∈ residentSnapshot ms, Explicit entry r.key r.context := by
            intro r hr
            obtain ⟨m, hm, rfl⟩ := List.mem_map.mp hr
            obtain ⟨hmem, hchat⟩ := List.mem_filter.mp hm
            rw [Bool.and_eq_true] at hchat
            exact hresidents hne m (hms m hmem) hchat.1 hchat.2
          exact ⟨hall models hmodels, fun _ ms _ _ hms => hall ms (hserves _ ms hms)⟩

/-! ### A server that fails every load -/

/-- What it answers: memory wording and crash wording at once. -/
def outOfMemory : Failure :=
  .http 500 (txt "model_load_failed: exited before becoming healthy, out of memory") []

/-- It frees what it is told to, and lists `catalogs n` at the `n`-th step. -/
def failing (catalogs : ℕ → List Entry) : World where
  monitors := false
  gpu := Gpu.absent
  models n := some (catalogs n)
  load _ := .error outOfMemory
  unload _ := none
  chatting _ := false
  polls _ := 0

section
variable {site}
  (hlower : ∀ s : Str, s.all (fun c => c.val < 128) = true → site.lower s = s.map lowerAscii)
include hlower

theorem outOfMemory_looks :
    looksMemory site outOfMemory.text = true ∧ looksEngineCrash site outOfMemory.text = true := by
  have hlow : site.lower outOfMemory.text = txt "http 500: " ++ (txt "model_load_failed" ++
      (txt ": " ++ (txt "exited before becoming healthy" ++ (txt ", " ++ txt "out of memory")))) := by
    rw [hlower outOfMemory.text (by decide)]
    rfl
  have hhint : txt "out of memory" ∈ MEMORY_HINTS := by decide
  simp only [looksMemory, looksEngineCrash, List.any_eq_true, Bool.and_eq_true, contains_iff, hlow]
  refine ⟨⟨_, hhint, ?_⟩, List.infix_append' _ _ _, ?_⟩
  · simp only [← List.append_assoc]
    exact (List.suffix_append _ _).isInfix
  · simp only [← List.append_assoc]
    exact (List.infix_append _ _ _).trans (List.prefix_append _ _).isInfix

theorem failing_firstLoads (catalogs : ℕ → List Entry) (key : Str) (want needed : ℤ)
    (log : List Event) : ∃ loads, 1 ≤ loads.length ∧ loads.length ≤ 2 ∧
      firstLoads site (failing catalogs) key want needed log =
        (⟨.error outOfMemory.text, true, true, none, none⟩, log ++ loads) := by
  obtain ⟨hmemory, hcrash⟩ := outOfMemory_looks hlower
  have hload (context : ℤ) (log : List Event) : loadInstance (failing catalogs) key context log =
      (.error outOfMemory.text, log ++ [Event.load key context (some outOfMemory.text)]) := rfl
  have hclassify (attempted : ℤ) (log : List Event) :
      classify site (failing catalogs) key outOfMemory.text attempted log =
        (⟨.error outOfMemory.text, true, true, none, none⟩, log) := by
    simp only [classify, hmemory, hcrash, Bool.not_true, Bool.and_false, Bool.false_eq_true,
      if_false, pure_apply]
  by_cases hsmaller : min want needed < want
  · refine ⟨[Event.load key want (some outOfMemory.text),
      Event.load key (min want needed) (some outOfMemory.text)], by simp, by simp, ?_⟩
    simp only [firstLoads, bind_apply, hload, hmemory, Bool.true_or, if_true, if_pos hsmaller,
      hclassify, List.append_assoc, List.singleton_append]
  · refine ⟨[Event.load key want (some outOfMemory.text)], by simp, by simp, ?_⟩
    simp only [firstLoads, bind_apply, hload, hmemory, Bool.true_or, if_true, if_neg hsmaller,
      hclassify]

/-- A resident that is listed when the swap comes to unload is unloaded and given back. -/
theorem failing_swap (catalogs : ℕ → List Entry) (models : List Entry) (key : Str) (want : ℤ)
    (residents : List Resident) {m : Entry} (hloaded : m.loaded = true) (hchat : isChat m = true)
    {log : List Event} (hlisted : catalogs log.length = [m])
    (hgone : catalogs (log.length + 3) = []) :
    ∃ err, .load m.key m.window err ∈ (swap site (failing catalogs) models key want residents
      ⟨.error outOfMemory.text, true, true, none, none⟩ outOfMemory.text log).2 := by
  obtain ⟨hmemory, hcrash⟩ := outOfMemory_looks hlower
  let r : Resident := ⟨m.key, m.inst, m.window⟩
  have hcurrent :
      currentResidents (failing catalogs) residents true log = ([r], log ++ [Event.read]) := by
    have hsnapshot : residentSnapshot [m] = [r] := by simp [residentSnapshot, hloaded, hchat, r]
    simp only [currentResidents, if_true, bind_apply, modelsEntries, now_apply, tell_apply,
      pure_apply, failing, hlisted, Option.elim_some, hsnapshot]
  have hunload (log' : List Event) (h : catalogs (log'.length + 1) = []) :
      unloadAndWait site (failing catalogs) r.victim log' =
        (none, log' ++ [Event.unload r.victim, Event.read, Event.gone r.victim]) := by
    simp [unloadAndWait, unloadInstance, waitUntil, modelsEntries, bind_apply, now_apply,
      tell_apply, pure_apply, failing, h, isGone]
  have hvacate : ∃ more, vacate site (failing catalogs) key want [r] [] (.error outOfMemory.text)
      (log ++ [Event.read]) = (.inr (.error outOfMemory.text, [(m.key, m.window)]), more) := by
    have hgo := hunload (log ++ [Event.read] ++ [Event.claim r.key true]) (by simpa using hgone)
    have hclaim : unloadClaim (failing catalogs) r.key (log ++ [Event.read]) =
        (true, log ++ [Event.read] ++ [Event.claim r.key true]) := rfl
    change unloadAndWait site (failing catalogs) ⟨r.key, r.instanceId, r.context, false⟩ _ = _
      at hgo
    simp only [vacate, hmemory, Bool.true_or, if_true, bind_apply, hclaim, hgo]
    exact ⟨_, rfl⟩
  obtain ⟨more, hvacate⟩ := hvacate
  refine ⟨some outOfMemory.text, ?_⟩
  have hswap : swap site (failing catalogs) models key want residents
      ⟨.error outOfMemory.text, true, true, none, none⟩ outOfMemory.text log =
      swapFailed (failing catalogs) key outOfMemory.text [(m.key, m.window)] more := by
    simp only [swap, bind_apply, hcurrent, hvacate]
    rfl
  rw [hswap]
  exact List.mem_append_right _ List.mem_cons_self

theorem failing_loadBeside (catalogs : ℕ → List Entry) {models : List Entry} (entry : Entry)
    (est want : ℤ) (hauto : swapPolicy site = .auto) (hresidents : residentSnapshot models ≠ [])
    {m : Entry} (hloaded : m.loaded = true) (hchat : isChat m = true)
    (hlisted : ∀ n, n = 2 ∨ n = 3 → catalogs n = [m])
    (hgone : ∀ n, n = 5 ∨ n = 6 → catalogs n = []) :
    ∃ err, .load m.key m.window err ∈
      (loadBeside site (failing catalogs) models entry est want [.read]).2 := by
  obtain ⟨loads, hone, htwo, hfirst⟩ :=
    failing_firstLoads hlower catalogs entry.key want (neededContext est) [Event.read]
  have hlength : ([Event.read] ++ loads : List Event).length = loads.length + 1 := by simp
  have hback := failing_swap hlower catalogs models entry.key want (residentSnapshot models) hloaded
    hchat (hlisted ([Event.read] ++ loads : List Event).length (by omega)) (hgone _ (by omega))
  have hbeside : loadBeside site (failing catalogs) models entry est want [Event.read] =
      swap site (failing catalogs) models entry.key want (residentSnapshot models)
        ⟨.error outOfMemory.text, true, true, none, none⟩ outOfMemory.text
        ([Event.read] ++ loads) := by
    have hmonitors : (failing catalogs).monitors = false := rfl
    simp only [loadBeside, bind_apply, hmonitors, Bool.false_eq_true, if_false, reduceCtorEq,
      false_and, hfirst, hauto, hresidents, ne_eq, not_false_iff, and_self, if_true]
  rwa [hbeside]

omit hlower in
/-- A model that is reloaded is given back at the window it was listed with. -/
theorem failing_reload (site : Site) (catalogs : ℕ → List Entry) (entry : Entry) (want : ℤ)
    (hgone : catalogs 3 = []) :
    ∃ err, .load entry.key entry.window err ∈
      (reload site (failing catalogs) entry want [.read]).2 := by
  refine ⟨some outOfMemory.text, ?_⟩
  have hunload : unloadAndWait site (failing catalogs) ⟨entry.key, entry.inst, entry.window, false⟩
      [Event.read, Event.claim entry.key true] =
        (none, [Event.read, Event.claim entry.key true, Event.unload entry.victim, Event.read,
          Event.gone entry.victim]) := by
    simp [unloadAndWait, unloadInstance, waitUntil, modelsEntries, bind_apply, now_apply,
      tell_apply, pure_apply, failing, hgone, isGone, Entry.victim]
  have hclaim : unloadClaim (failing catalogs) entry.key [Event.read] =
      (true, [Event.read, Event.claim entry.key true]) := rfl
  simp only [reload, bind_apply, hclaim, if_true, hunload]
  simp [loadInstance, restore, bind_apply, now_apply, tell_apply, pure_apply, failing]

end

/-- The loads of a call carry their windows, whatever a server of a build answers, exactly when
that build reports what a swap gives back. -/
theorem loads_explicit_iff
    (hlower : ∀ s : Str, s.all (fun c => c.val < 128) = true → site.lower s = s.map lowerAscii)
    (build : Entry → Prop) (model : Str) (est : ℕ) :
    (∀ w, Serves w build → SendsExplicitly site (w.models 0) model
        (ensureLoadedLocked site w model est []).2) ↔ Reported site build model est := by
  refine ⟨fun h hauto models entry hmodels hfind hadmitted => ?_, fun h w hserves =>
    (ensureLoadedLocked_sends site w hserves model est h).run⟩
  have hserves {catalogs : ℕ → List Entry} (hc : ∀ n, ∀ m ∈ catalogs n, build m) :
      Serves (failing catalogs) build := by
    rintro n ms hms
    obtain rfl := Option.some.inj hms
    exact hc n
  have hsent {catalogs : ℕ → List Entry} (hc : ∀ n, ∀ m ∈ catalogs n, build m)
      (hfirst : catalogs 0 = models) (key : Str) (context : ℤ) (err : Option Str)
      (hmem : .load key context err ∈
        (ensureLoadedLocked site (failing catalogs) model est []).2) :
      Explicit entry key context := by
    obtain ⟨ms, entry', hms, hfind', hexplicit⟩ := h _ (hserves hc) key context err hmem
    obtain rfl := Option.some.inj (show some models = some ms by rw [← hms, ← hfirst]; rfl)
    obtain rfl := Option.some.inj (hfind.symm.trans hfind')
    exact hexplicit
  have hread (catalogs : ℕ → List Entry) : modelsEntries (failing catalogs) [] =
      (some (catalogs 0), [.read]) := rfl
  by_cases hloaded : entry.loaded = true
  · rw [if_pos hloaded]
    by_contra hnegative
    let catalogs : ℕ → List Entry := fun n => if n = 0 then models else []
    have hcatalogs : ∀ n, ∀ m ∈ catalogs n, build m := by
      intro n m hm
      dsimp only [catalogs] at hm
      split_ifs at hm
      · exact hmodels m hm
      · nomatch hm
    have hneeded : 0 < neededContext est := by
      unfold neededContext MIN_OUTPUT_TOKENS CONTEXT_MARGIN
      omega
    have hsmall : ¬(entry.window = 0 ∨ neededContext est ≤ entry.window) := by omega
    obtain ⟨err, hmem⟩ := failing_reload site catalogs entry
      (desiredContext site est (entry.maxContext.getD 0)) rfl
    have hexplicit := hsent hcatalogs rfl entry.key entry.window err (by
      simp only [ensureLoadedLocked, bind_apply, hread]
      simp only [catalogs, if_true, hfind, hadmitted, hloaded, if_neg hsmall, hauto, ne_eq,
        not_true, if_false]
      exact hmem)
    have := ((explicit_iff _ _ _).mp hexplicit).1
    omega
  · rw [if_neg hloaded]
    intro hresidents m hm hmloaded hmchat
    let catalogs : ℕ → List Entry := fun n =>
      if n = 0 then models else if n = 2 ∨ n = 3 then [m] else []
    have hcatalogs : ∀ n, ∀ m ∈ catalogs n, build m := by
      intro n m' hm'
      dsimp only [catalogs] at hm'
      split_ifs at hm'
      · exact hmodels m' hm'
      · exact List.mem_singleton.mp hm' ▸ hm
      · nomatch hm'
    obtain ⟨err, hmem⟩ := failing_loadBeside hlower catalogs entry est
      (desiredContext site est (entry.maxContext.getD 0)) hauto hresidents hmloaded hmchat
      (by rintro n (rfl | rfl) <;> rfl) (by rintro n (rfl | rfl) <;> rfl)
    refine hsent hcatalogs rfl _ _ err ?_
    simp only [ensureLoadedLocked, bind_apply, hread]
    simp only [catalogs, if_true, hfind, hadmitted, if_neg hloaded]
    exact hmem

/-- A build that reports every window, at a site that swaps. -/
theorem loads_explicit_of_reporting :
    (∀ s : Str, s.all (fun c => c.val < 128) = true →
      (Site.ascii (txt "auto")).lower s = s.map lowerAscii) ∧
    ((∀ w, Serves w (fun m => m.loadedContext = some 4096 ∧ m.maxContext = some 8192) →
        SendsExplicitly (.ascii (txt "auto")) (w.models 0) (txt "b")
          (ensureLoadedLocked (.ascii (txt "auto")) w (txt "b") 100 []).2) ↔
      Reported (.ascii (txt "auto"))
        (fun m => m.loadedContext = some 4096 ∧ m.maxContext = some 8192) (txt "b") 100) :=
  ⟨fun _ _ => rfl, loads_explicit_iff (.ascii (txt "auto")) (fun _ _ => rfl)
    (fun m => m.loadedContext = some 4096 ∧ m.maxContext = some 8192) (txt "b") 100⟩

/-- `b` does not fit beside `a`, whose window the build does not report. -/
def unreported : World :=
  failing fun n => [⟨txt "a", txt "llm", none, none, decide (n < 5), none, none⟩,
    ⟨txt "b", txt "llm", none, none, false, none, none⟩]

theorem restore_without_window :
    ¬∀ (site : Site) (w : World) (model : Str) (est : ℕ), SendsExplicitly site (w.models 0) model
      (ensureLoadedLocked site w model est []).2 := by
  intro h
  have hmem : .load (txt "a") 0 (some outOfMemory.text) ∈
      (ensureLoadedLocked (.ascii (txt "auto")) unreported (txt "b") 100 []).2 := by
    decide +kernel
  obtain ⟨ms, entry, -, -, ⟨c, hsent, -⟩, -⟩ :=
    h (.ascii (txt "auto")) unreported (txt "b") 100 _ _ _ hmem
  nomatch hsent

end AskFable.Lms

import AskFable.Ask.Bridge

/-!
# The model that an id is resumed with

The session stores an id and not the model that made it. A dispatch that resumes goes to
the model that the pin and the ladder give at that moment, so it is the right one as long
as they still give the model whose answer returned the id.
-/
namespace AskFable.Ask
open AskFable.Text AskFable.Python AskFable.Debate AskFable.Extract

/-- A resumed id goes to the model whose answer returned it. -/
def SameModel (d : Dispatch × List (Str × Str)) : Prop :=
  ∀ id ∈ d.1.resume, d.2.lookup id = some d.1.model

/-- The transport has rejected each rung above the model, and not the model itself unless
it is the floor. -/
def Stands (ladder : Ladder) (unavailable : Unavailable) (transport : Transport) (model : Str) :
    Prop :=
  ∃ above below, ladder.candidates = above ++ model :: below ∧
    (∀ c ∈ above, (transport, c) ∈ unavailable) ∧ ((transport, model) ∉ unavailable ∨ below = [])

/-- The pin is the model that returned the id, or there is none and the model stands. -/
def Settled (ladder : Ladder) (s : Process) (pin : Str) (transport : Transport) (id : Str) : Prop :=
  ∀ model, s.answers.lookup id = some model →
    if pin ≠ [] then pin = model else Stands ladder s.unavailable transport model

section
variable [Host] (lower : Str → Str) (ladder : Ladder) (t : Task)

/-- Whatever the input resumes, the operator's pin or the ladder has not moved away from. -/
def Steady (s : Process) : Input → Prop
  | .ask _ reset modelEnv selector legacy =>
    s.flight = none → reset = false → ∀ transport left id,
      transportPlan lower selector legacy = some (transport :: left) → s.stored t = some id →
        Settled ladder s (strip modelEnv) transport id
  | .reply res =>
    ∀ f transport left id, s.flight = some f →
      (dispatched f.out res).kind ∈ REROUTE_KINDS → f.left = transport :: left →
        f.resume = some id → Settled ladder s f.pin transport id
  | _ => True

omit [Host] in
/-- The ladder gives a model exactly where it stands. -/
theorem ladderModel_eq_iff {unavailable : Unavailable} {transport : Transport} {model : Str} :
    ladderModel ladder [] unavailable (some transport) = model ↔
      Stands ladder unavailable transport model := by
  have hnewest : newest ladder unavailable transport = some model ↔
      ∃ above below, ladder.candidates = above ++ model :: below ∧
        (∀ c ∈ above, (transport, c) ∈ unavailable) ∧ (transport, model) ∉ unavailable := by
    simp [newest, List.find?_eq_some_iff_append, and_comm, and_left_comm]
  have hlast := List.dropLast_append_getLast ladder.floored
  simp only [ladderModel, ne_eq, not_true_eq_false, if_false]
  constructor
  · intro h
    cases hn : newest ladder unavailable transport with
    | some m =>
      obtain rfl : m = model := by simpa [hn] using h
      obtain ⟨above, below, heq, habove, hmodel⟩ := hnewest.mp hn
      exact ⟨above, below, heq, habove, Or.inl hmodel⟩
    | none =>
      -- every rung was rejected, so the floor is asked for
      rw [hn, Option.getD_none] at h
      rw [newest, List.find?_eq_none] at hn
      refine ⟨ladder.candidates.dropLast, [], h ▸ hlast.symm, fun c hc => ?_, Or.inr rfl⟩
      simpa using hn c (List.dropLast_subset _ hc)
  · rintro ⟨above, below, heq, habove, hmodel⟩
    by_cases hrejected : (transport, model) ∈ unavailable
    · obtain rfl := hmodel.resolve_left (not_not.mpr hrejected)
      have hnone : newest ladder unavailable transport = none := by
        rw [newest, List.find?_eq_none, heq]
        simpa [or_imp, forall_and] using ⟨habove, hrejected⟩
      rw [hnone, Option.getD_none]
      simp [heq]
    · rw [hnewest.mpr ⟨above, below, heq, habove, hrejected⟩, Option.getD_some]

omit [Host] in
/-- A dispatch resumes with the right model exactly where the settings have not moved. -/
theorem settled_iff {s : Process} {pin : Str} {transport : Transport} {id : Str}
    (h : (s.answers.lookup id).isSome) :
    s.answers.lookup id = some (ladderModel ladder pin s.unavailable (some transport)) ↔
      Settled ladder s pin transport id := by
  obtain ⟨model, hmodel⟩ := Option.isSome_iff_exists.mp h
  rw [Settled, hmodel, Option.some.injEq]
  by_cases hpin : pin = []
  · simp only [hpin, ne_eq, not_true_eq_false, if_false, Option.some.injEq, forall_eq']
    rw [← ladderModel_eq_iff, eq_comm]
  · simp only [ladderModel, ne_eq, hpin, not_false_eq_true, if_true, Option.some.injEq, forall_eq']
    exact eq_comm

/-- Each id in use was returned by a recorded answer. -/
structure Traced (s : Process) : Prop where
  stored : ∀ id, s.stored t = some id → (s.answers.lookup id).isSome
  flying : ∀ f id, s.flight = some f → f.resume = some id → (s.answers.lookup id).isSome

variable {t}

/-- What a turn stores is what its answer returned, or what was stored. -/
theorem stored_settle {w : World} {question : Str} {res : BridgeResult} {id : Str}
    (h : (w.settle t question res).store.resumeId (sessionKey t.slot) = some id) :
    recordedId res = some id ∨ w.store.resumeId (sessionKey t.slot) = some id := by
  rw [World.settle] at h
  rw [recordedId]
  cases hstatus : res.status with
  | refused => exact Or.inr (by simpa [hstatus] using h)
  | error =>
    rw [hstatus] at h
    dsimp only at h
    split_ifs at h
    · have hnone : (w.store.forgetResume (sessionKey t.slot)).resumeId (sessionKey t.slot) = none :=
        congrArg Prod.fst SessionStore.view_forgetResume
      rw [World.forget, hnone] at h
      cases h
    · exact Or.inr h
  | ok =>
    rw [hstatus] at h
    cases hparts : Sidecar.extract res.text with
    | error e => exact Or.inr (by simpa [hparts] using h)
    | ok parts =>
      rw [hparts] at h
      have hid : (w.record t question parts.1 parts.2 res).store.resumeId (sessionKey t.slot) =
          (res.sessionId.filter (· ≠ [])).or (w.store.resumeId (sessionKey t.slot)) :=
        congrArg Prod.fst (SessionStore.view_bump_record _ _ _)
      exact Option.or_eq_some_iff.mp (hid.symm.trans h) |>.imp_right And.right

omit [Host] in
/-- More answers trace more ids. -/
theorem lookup_cons {answers : List (Str × Str)} {id id' model : Str}
    (h : (answers.lookup id).isSome) : (((id', model) :: answers).lookup id).isSome := by
  rw [List.lookup_cons]
  cases id == id' <;> simp [h]

omit [Host] in
theorem Traced.attempt {s : Process} (h : Traced t s) {question pin : Str} {resume : Option Str}
    (hresume : ∀ id, resume = some id → (s.answers.lookup id).isSome) (transport : Transport)
    (left : List Transport) : Traced t (s.attempt ladder question pin resume transport left) := by
  refine ⟨h.stored, fun f id hf hid => ?_⟩
  obtain rfl := Option.some.inj hf
  exact hresume id hid

theorem Traced.finish {s : Process} (h : Traced t s) (f : Flight) (res : BridgeResult) :
    Traced t (s.finish t f res) := by
  refine ⟨fun id hid => ?_, fun f id hf => by cases hf⟩
  rw [Process.finish]
  dsimp only
  rcases stored_settle hid with hnew | hold
  · rw [hnew]
    simp
  · cases recordedId res with
    | none => exact h.stored id hold
    | some id' => exact lookup_cons (h.stored id hold)

theorem Traced.proceed {s : Process} (h : Traced t s) {f : Flight} (res : BridgeResult)
    (hf : ∀ id, f.resume = some id → (s.answers.lookup id).isSome) :
    Traced t (s.proceed ladder t f res) := by
  rw [Process.proceed]
  cases f.left with
  | nil => exact h.finish f res
  | cons transport left =>
    dsimp only
    split_ifs
    · exact h.attempt ladder hf transport left
    · exact h.finish f res

theorem Traced.receive {s : Process} (h : Traced t s) {f : Flight} (hf : s.flight = some f)
    (res : BridgeResult) : Traced t (s.receive ladder t f res) := by
  have hresume (id) (hid : f.resume = some id) : (s.answers.lookup id).isSome := h.flying f id hf hid
  rw [Process.receive]
  split_ifs
  · dsimp only
    split
    · exact ⟨h.stored, fun f' id hf' hid => by
        obtain rfl := Option.some.inj hf'
        exact hresume id hid⟩
    · have hdemoted : Traced t { s with
          unavailable := (demote ladder s.unavailable f.out.transport f.out.model).1 } :=
        ⟨h.stored, h.flying⟩
      exact hdemoted.proceed ladder res hresume
  · exact h.proceed ladder res hresume

omit [Host] in
theorem stored_doReset {s : Process} :
    ({ s with world := s.world.doReset t true } : Process).stored t = none :=
  congrArg Prod.fst (SessionStore.view_reset true)

omit [Host] in
theorem Traced.begin {s : Process} (h : Traced t s) (question : Str) (reset : Bool)
    (modelEnv selector legacy : Str) :
    Traced t (s.begin lower ladder t question reset modelEnv selector legacy) := by
  have hfirst : Traced t (if reset then { s with world := s.world.doReset t true } else s) := by
    split_ifs
    · refine ⟨fun id hid => ?_, h.flying⟩
      rw [stored_doReset] at hid
      cases hid
    · exact h
  rw [Process.begin]
  generalize (if reset then { s with world := s.world.doReset t true } else s) = s' at hfirst
  split
  · exact hfirst.attempt ladder hfirst.stored _ _
  · exact hfirst

theorem Traced.step {s : Process} (h : Traced t s) (a : Input) :
    Traced t (s.step lower ladder t a) := by
  cases a with
  | ask question reset modelEnv selector legacy =>
    rw [Process.step]
    cases hf : s.flight with
    | none => exact h.begin lower ladder question reset modelEnv selector legacy
    | some f => exact h
  | reply res =>
    rw [Process.step]
    cases hf : s.flight with
    | none => exact h
    | some f => exact h.receive ladder hf (dispatched f.out res)
  | cancel => exact ⟨h.stored, fun f id hf => by cases hf⟩
  | demoted transport model => exact ⟨h.stored, h.flying⟩

/-- What a dispatched result leads to is right as long as the settings have not moved. -/
theorem proceed_iff {s : Process} {f : Flight} (res : BridgeResult)
    (hf : ∀ id, f.resume = some id → (s.answers.lookup id).isSome) :
    (∀ d, ((s.proceed ladder t f res).flight.map fun f => (f.out, s.answers)) = some d →
        SameModel d) ↔
      ∀ transport left id, res.kind ∈ REROUTE_KINDS → f.left = transport :: left →
        f.resume = some id → Settled ladder s f.pin transport id := by
  rw [Process.proceed]
  cases f.left with
  | nil => simp [Process.finish]
  | cons transport left =>
    dsimp only
    by_cases hkind : res.kind ∈ REROUTE_KINDS
    · rw [if_pos hkind]
      simp only [Process.attempt, Option.map_some, Option.some.injEq, forall_eq', SameModel]
      constructor
      · rintro hsame τ left' id - hleft hid
        obtain ⟨rfl, -⟩ := List.cons.inj hleft
        exact (settled_iff ladder (hf id hid)).mp (hsame id hid)
      · intro hsettled id hid
        exact (settled_iff ladder (hf id hid)).mpr (hsettled transport left id hkind rfl hid)
    · rw [if_neg hkind]
      simp [Process.finish, hkind]

omit [Host] in
theorem begin_iff {s : Process} (h : Traced t s) (hflight : s.flight = none) (question : Str)
    (reset : Bool) (modelEnv selector legacy : Str) :
    (∀ d, ((s.begin lower ladder t question reset modelEnv selector legacy).flight.map
        fun f => (f.out, s.answers)) = some d → SameModel d) ↔
      (reset = false → ∀ transport left id,
        transportPlan lower selector legacy = some (transport :: left) → s.stored t = some id →
          Settled ladder s (strip modelEnv) transport id) := by
  rw [Process.begin]
  cases reset with
  | true =>
    simp only [if_true, Bool.true_eq_false, false_imp_iff, iff_true]
    intro d hd
    split at hd
    · simp only [Process.attempt, stored_doReset, Option.map_some, Option.some.injEq] at hd
      rw [← hd]
      intro id hid
      cases hid
    · simp [hflight] at hd
  | false =>
    simp only [Bool.false_eq_true, if_false, forall_const]
    split
    · rename_i transport left hplan
      simp only [Process.attempt, Option.map_some, Option.some.injEq, forall_eq', SameModel]
      constructor
      · rintro hsame τ left' id hplan' hid
        obtain ⟨rfl, -⟩ := List.cons.inj (Option.some.inj (hplan.symm.trans hplan'))
        exact (settled_iff ladder (h.stored id hid)).mp (hsame id hid)
      · intro hsettled id hid
        exact (settled_iff ladder (h.stored id hid)).mpr (hsettled transport left id hplan hid)
    · rename_i hplan
      refine iff_of_true (by simp [hflight]) fun transport left id hplan' => ?_
      exact absurd hplan' (hplan transport left)

theorem receive_iff {s : Process} (h : Traced t s) {f : Flight} (hflight : s.flight = some f)
    (res : BridgeResult) :
    (∀ d, ((s.receive ladder t f res).flight.map fun f => (f.out, s.answers)) = some d →
        SameModel d) ↔
      ∀ transport left id, res.kind ∈ REROUTE_KINDS → f.left = transport :: left →
        f.resume = some id → Settled ladder s f.pin transport id := by
  have hresume (id) (hid : f.resume = some id) : (s.answers.lookup id).isSome :=
    h.flying f id hflight hid
  rw [Process.receive]
  split_ifs with hrejected
  · -- a rejected model is retried without the id, and is no reason to reroute
    have hkind : res.kind ∉ REROUTE_KINDS := by
      rw [hrejected.2.2]
      decide +kernel
    simp only [hkind, false_imp_iff, implies_true, iff_true]
    intro d hd
    split at hd
    · simp only [Option.map_some, Option.some.injEq] at hd
      rw [← hd]
      intro id hid
      cases hid
    · rw [Process.proceed] at hd
      cases hleft : f.left <;> simp [hleft, hkind, Process.finish] at hd
  · exact proceed_iff ladder res hresume

variable (t)

theorem sameModel_iff_steady {s : Process} (h : Traced t s) (a : Input) :
    (∀ d, s.dispatch lower ladder t a = some d → SameModel d) ↔ Steady lower ladder t s a := by
  cases a with
  | ask question reset modelEnv selector legacy =>
    rw [Process.dispatch.eq_def, Steady]
    cases hflight : s.flight with
    | some f => simp
    | none =>
      simp only [Process.step, hflight, forall_const]
      exact begin_iff lower ladder h hflight question reset modelEnv selector legacy
  | reply res =>
    rw [Process.dispatch.eq_def, Steady]
    cases hflight : s.flight with
    | none => simp
    | some f =>
      simp only [Process.step, hflight, receive_iff ladder h hflight]
      constructor
      · rintro hreceive f' transport left id hf
        obtain rfl := Option.some.inj hf
        exact hreceive transport left id
      · exact fun hsteady transport left id => hsteady f transport left id rfl
  | cancel => cases hf : s.flight <;> simp [Process.dispatch, Steady, hf]
  | demoted transport model => cases hf : s.flight <;> simp [Process.dispatch, Steady, hf]

omit [Host] in
theorem Traced.init : Traced t Process.init := by
  constructor
  · intro id hid
    cases hid
  · intro f id hf
    cases hf

/-- A process only ever resumes an id with the model whose answer returned it, exactly if
at each dispatch that resumes, the pin in force is that model or the ladder without a pin
still stands at it on the transport. -/
theorem resume_keeps_model (inputs : List Input) :
    (∀ d ∈ Machine.observed (Process.step lower ladder t) (Process.dispatch lower ladder t)
        Process.init inputs, SameModel d) ↔
      Machine.Along (Process.step lower ladder t) (Steady lower ladder t) Process.init inputs :=
  Machine.forall_observed_iff (I := Traced t) (Process.step lower ladder t)
    (fun _ a hs => hs.step lower ladder a) (fun _ a hs => sameModel_iff_steady lower ladder t hs a)
    (Traced.init t) inputs

end

/-- A turn on the newest rung, a demotion of that rung by another call, and a second turn. -/
def demotedBetween : List Input :=
  [.ask (txt "why?") false [] (txt "sdk") [],
    .reply ⟨⟨.ok, [], txt "because", [], txt "claude-fable-5-1"⟩, some (txt "S1"), false⟩,
    .demoted .sdk (txt "claude-fable-5-1"),
    .ask (txt "and then?") false [] (txt "sdk") []]

/-- The second turn resumes on the floor what the rung above it began. -/
theorem demotion_moves_conversation :
    ¬∀ (_ : Host) (lower : Str → Str) (ladder : Ladder) (t : Task) (inputs : List Input),
      ∀ d ∈ Machine.observed (Process.step lower ladder t) (Process.dispatch lower ladder t)
        Process.init inputs, SameModel d := by
  intro h
  let host : Host := Host.ascii
  have hsame := h host (List.map lowerAscii) FABLE_LADDER ⟨0, ⟨.fable, txt "main"⟩, .ask [] false⟩
    demotedBetween (⟨.sdk, txt "claude-fable-5", some (txt "S1")⟩,
      [(txt "S1", txt "claude-fable-5-1")]) (by decide +kernel)
  exact absurd (hsame (txt "S1") rfl) (by decide +kernel)

end AskFable.Ask

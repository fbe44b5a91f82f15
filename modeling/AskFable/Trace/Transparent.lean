import AskFable.Ask.Loop
import AskFable.General.Machine
import AskFable.Trace.Runtime

/-!
# What tracing changes of a call

The digest of an answer is taken between the answer and the record of the turn, and the
digest of a payload before it is returned; both encode a text strictly. So a lone surrogate
in the answer costs the turn and the result, one in the payload the result. Everything else
of the trace leaves the call as it is, and whatever happens one completion is attempted.
-/
namespace AskFable.Trace
open AskFable.Text AskFable.Python AskFable.Python.JsonText AskFable.Ask AskFable.Debate
  AskFable.Extract

/-- `event_name == "tool.completed"`, by which a call is told to have ended. -/
def completions (es : List TraceEvent) : ℕ := es.countP fun e => e.eventName = txt "tool.completed"

section
variable [Host] [EventHost] (env : Env)

/-! ### The call -/

/-- What the bridge returns, with its telemetry. -/
structure Answer where
  res : BridgeResult
  telemetry : Option ProviderTelemetry

def statusText : Status → Str
  | .ok => txt "ok"
  | .refused => txt "refused"
  | .error => txt "error"

/-- `record_provider`, as `ask` calls it; none when it raises. -/
def recordProvider (t : Traced) (a : Answer) : Option Traced :=
  match a.telemetry with
  | none => some t
  | some telemetry =>
    if telemetry.transport = some (txt "cache") then some t
    else t.provider env telemetry (statusText a.res.status) a.res.thinking a.res.kind
      (if a.res.status = .ok then some a.res.text else none)

/-- What an answered turn does to the sessions. -/
def settled (store : SessionStore) (key question : Str) (res : BridgeResult) : SessionStore :=
  match res.status with
  | .refused => store
  | .error => if res.resumeFailed then store.forgetResume key else store
  | .ok =>
    match Sidecar.extract res.text with
    | .ok (prose, sc) =>
      (store.bumpBlocked key (sc.bind (·.recommendation) = some (txt "needs_more_context"))).recordTurn
        key ⟨question, prose, res.thinking⟩ res.sessionId
    | .error _ => store

/-- The sessions after a call, and what it hands to `json.dumps`; no result when the
exception leaves the call. -/
structure Outcome where
  store : SessionStore
  result : Option Dict

/-- A turn of `ask` without a trace: its redacted payload is the result. -/
def untraced (store : SessionStore) (key question : Str) (a : Answer) (payload : Dict) : Outcome :=
  ⟨settled store key question a.res, some payload⟩

/-- The payload of `call_tool` for an exception with this text. -/
def sdkError (failure : Str) : Dict :=
  [(txt "status", .str (txt "error")), (txt "kind", .str (txt "sdk_error")), (txt "detail", .str failure)]

/-- A turn of `ask` with a trace. An exception of `record_provider` or `complete` ends in an
error payload, which is completed in its place. -/
def traced (t : Traced) (store : SessionStore) (key question : Str) (a : Answer) (payload : Dict)
    (failure : Str) : Traced × Outcome :=
  match recordProvider env t a with
  | none =>
    let c := t.complete env (sdkError failure)
    (c.1, ⟨store, c.2⟩)
  | some t =>
    let c := t.complete env payload
    let c := if c.2.isSome then c else c.1.complete env (sdkError failure)
    (c.1, ⟨settled store key question a.res, c.2⟩)

/-- The end of `tool_trace`. -/
def leave (t : Traced) (error : Dict) : Traced :=
  if t.trace.completed then t
  else t.emit env (txt "tool.completed") .tool (txt "incomplete")
    { durationMs := some (EventHost.floatOfInt (env.elapsedMs t.attempted.length)), error := some error }

omit [EventHost] in
theorem settle_store (w : World) (task : Task) (question : Str) (res : BridgeResult) :
    (w.settle task question res).store = settled w.store (sessionKey task.slot) question res := by
  unfold World.settle settled
  cases res.status with
  | refused => rfl
  | error => cases res.resumeFailed <;> rfl
  | ok => cases Sidecar.extract res.text <;> rfl

/-! ### When the recorders raise -/

/-- The answer whose digest is taken has no lone surrogate. -/
def Recordable (a : Answer) : Prop :=
  ∀ telemetry ∈ a.telemetry, telemetry.transport ≠ some (txt "cache") → a.res.status = .ok →
    a.res.text.any isSurrogate = false

/-- The payload has a list of artifacts if any, no integer too long to print and no lone
surrogate. -/
def Completable (payload : Dict) : Prop :=
  (artifactsIn payload).isSome = true ∧ (dumpsPlain (.obj payload)).isSome = true ∧
    hasSurrogate (.obj payload) = false

omit [Host] [EventHost] in
theorem digest_isSome_iff (answer : Option Str) :
    (Traced.digest env answer).isSome = true ↔ ∀ s ∈ answer, s.any isSurrogate = false := by
  cases answer with
  | none => simp [Traced.digest]
  | some s =>
    cases s with
    | nil => simp [Traced.digest]
    | cons c s =>
      simp only [Traced.digest, captureContent, Utf8.encode, Option.isSome_map, Option.mem_some_iff,
        forall_eq']
      cases (c :: s).any isSurrogate <;> simp

omit [Host] [EventHost] in
theorem recordProvider_isSome_iff (t : Traced) (a : Answer) :
    (recordProvider env t a).isSome = true ↔ Recordable a := by
  unfold recordProvider Recordable
  cases a.telemetry with
  | none => simp
  | some telemetry =>
    by_cases hcache : telemetry.transport = some (txt "cache")
    · simp [hcache]
    · simp only [hcache, if_false, Traced.provider, Option.isSome_map, digest_isSome_iff]
      cases a.res.status <;> simp [hcache]

/-! ### What the recorders leave alone -/

/-- Between two states no completion is attempted. -/
def Calm (t t' : Traced) : Prop :=
  t'.trace.completed = t.trace.completed ∧ completions t'.attempted = completions t.attempted

omit [Host] [EventHost] in
theorem Calm.trans {t t' t'' : Traced} (h : Calm t t') (h' : Calm t' t'') : Calm t t'' :=
  ⟨h'.1.trans h.1, h'.2.trans h.2⟩

omit [Host] [EventHost] in
theorem completed_append (t : Traced) (e : TraceEvent) :
    (t.append env e).trace.completed = t.trace.completed := by
  unfold Traced.append
  cases t.accepts env e <;> rfl

omit [Host] [EventHost] in
theorem completions_append (t : Traced) (e : TraceEvent) :
    completions (t.append env e).attempted =
      completions t.attempted + if e.eventName = txt "tool.completed" then 1 else 0 := by
  simp only [Traced.append, completions, List.countP_append, List.countP_singleton,
    decide_eq_true_eq]

omit [Host] [EventHost] in
theorem calm_append (t : Traced) {e : TraceEvent} (h : e.eventName ≠ txt "tool.completed") :
    Calm t (t.append env e) := by
  refine ⟨completed_append env t e, ?_⟩
  rw [completions_append, if_neg h, Nat.add_zero]

omit [Host] [EventHost] in
theorem eventName_spanEvent (t : Traced) (drawn : ℕ) (name : Str) (kind : EventKind)
    (spanId status : Str) (startedAt : Option Datetime) (fields : EventFields) :
    (t.spanEvent env drawn name kind spanId status startedAt fields).eventName = name := by
  cases startedAt <;> rfl

omit [Host] [EventHost] in
theorem calm_attempt (attempts : ℕ) (span status : Str) (startedAt : Option Datetime) (t : Traced)
    (n : ℕ) : Calm t (Traced.attempt env attempts span status startedAt t n) := by
  refine (calm_append env t ?_).trans (calm_append env _ ?_) <;> rw [eventName_spanEvent] <;> decide

omit [Host] [EventHost] in
theorem calm_attempts (attempts : ℕ) (span status : Str) (startedAt : Option Datetime) (ns : List ℕ)
    (t : Traced) : Calm t (ns.foldl (Traced.attempt env attempts span status startedAt) t) := by
  induction ns generalizing t with
  | nil => exact ⟨rfl, rfl⟩
  | cons n ns ih => exact (calm_attempt env attempts span status startedAt t n).trans (ih _)

omit [Host] [EventHost] in
theorem calm_recordSpans (t : Traced) (telemetry : ProviderTelemetry) (status thinking kind : Str)
    (output : Option Dict) : Calm t (t.recordSpans env telemetry status thinking kind output) := by
  unfold Traced.recordSpans
  simp only
  refine Calm.trans ?_ (calm_attempts env _ _ _ _ _ _)
  split_ifs
  all_goals
    first
      | exact (calm_append env t (by rw [eventName_spanEvent]; decide)).trans
          (calm_append env _ (by rw [eventName_spanEvent]; decide))
      | exact calm_append env t (by rw [eventName_spanEvent]; decide)

omit [Host] [EventHost] in
theorem calm_emit (t : Traced) {name : Str} (h : name ≠ txt "tool.completed") (kind : EventKind)
    (status : Str) (fields : EventFields) : Calm t (t.emit env name kind status fields) :=
  calm_append env t h

omit [Host] [EventHost] in
theorem calm_saveArtifact (t : Traced) (kind path : Str) (artifacts : List Json) :
    Calm t (t.saveArtifact env kind path artifacts).1 := calm_emit env t (by decide) _ _ _

omit [Host] [EventHost] in
theorem calm_saveBundle (t : Traced) (payload : Dict) (artifacts : List Json) :
    Calm t (t.saveBundle env payload artifacts).1 := by
  unfold Traced.saveBundle
  split_ifs with hnone hfull
  · exact ⟨rfl, rfl⟩
  · cases writeBundle env _ with
    | some path => exact calm_saveArtifact env t _ _ _
    | none => exact calm_emit env _ (by decide) _ _ _
  · cases writeBundle env _ with
    | some path => exact calm_saveArtifact env t _ _ _
    | none => exact ⟨rfl, rfl⟩

omit [Host] [EventHost] in
theorem calm_saveFile (t : Traced) (payload : Dict) (artifacts : List Json) :
    Calm t (t.saveFile env payload artifacts).1 := by
  unfold Traced.saveFile
  split
  · exact calm_saveArtifact env t _ _ _
  · exact ⟨rfl, rfl⟩

/-! ### One completion -/

/-- One completion has been attempted if the trace is completed, none before. -/
def Counted (t : Traced) : Prop := completions t.attempted = if t.trace.completed then 1 else 0

omit [Host] [EventHost] in
theorem Calm.counted {t t' : Traced} (h : Calm t t') (ht : Counted t) : Counted t' := by
  unfold Counted at ht ⊢
  rw [h.1, h.2, ht]

omit [Host] in
theorem finish_isSome_iff (t : Traced) (payload : Dict) (status : Str) (durationMs : ℤ)
    (cache : Option Dict) (artifacts : List Json) :
    (t.finish env payload status durationMs cache artifacts).isSome = true ↔
      t.trace.completed = true ∨
        (dumpsPlain (.obj payload)).isSome = true ∧ hasSurrogate (.obj payload) = false := by
  unfold Traced.finish
  cases t.trace.completed with
  | true => simp
  | false =>
    cases htext : dumpsPlain (.obj payload) with
    | none => simp
    | some text =>
      rw [← dumpsPlain_surrogate _ htext, Option.bind_some, Utf8.encode]
      generalize text.any isSurrogate = lone
      cases lone <;> simp

omit [Host] in
theorem finish_spec {t t' : Traced} {payload : Dict} {status : Str} {durationMs : ℤ}
    {cache : Option Dict} {artifacts : List Json}
    (h : t.finish env payload status durationMs cache artifacts = some t') (ht : Counted t) :
    t'.trace.completed = true ∧ Counted t' := by
  unfold Traced.finish at h
  by_cases hdone : t.trace.completed = true
  · rw [if_pos hdone] at h
    rw [← Option.some.inj h]
    exact ⟨hdone, ht⟩
  · rw [if_neg hdone] at h
    obtain ⟨text, -, h⟩ := Option.bind_eq_some_iff.mp h
    obtain ⟨bytes, -, rfl⟩ := Option.map_eq_some_iff.mp h
    refine ⟨rfl, ?_⟩
    unfold Counted at ht ⊢
    rw [if_neg hdone] at ht
    simp only [Traced.emit, completions_append, ht, TraceEvent.new, if_true, Nat.zero_add]

theorem complete_isSome_iff (t : Traced) (payload : Dict) :
    (t.complete env payload).2.isSome = true ↔
      (statusIn payload).isSome = true ∧ (artifactsIn payload).isSome = true ∧
        (t.trace.completed = true ∨
          (dumpsPlain (.obj payload)).isSome = true ∧ hasSurrogate (.obj payload) = false) := by
  unfold Traced.complete
  cases statusIn payload with
  | none => simp
  | some status =>
    cases artifactsIn payload with
    | none => simp
    | some given =>
      have hbundle := calm_saveBundle env t payload given
      have hfile := calm_saveFile env (t.saveBundle env payload given).1 payload
        (t.saveBundle env payload given).2
      have hfinish := finish_isSome_iff env ((t.saveBundle env payload given).1.saveFile env payload
        (t.saveBundle env payload given).2).1 payload status (env.elapsedMs t.attempted.length)
        ((blockIn payload (txt "cache")).or t.trace.cacheSummary)
        ((t.saveBundle env payload given).1.saveFile env payload (t.saveBundle env payload given).2).2
      rw [(hbundle.trans hfile).1] at hfinish
      simp only [Option.isSome_some, true_and]
      rw [← hfinish]
      split <;> simp [*]

theorem counted_complete (t : Traced) (payload : Dict) (ht : Counted t) :
    Counted (t.complete env payload).1 ∧
      ((t.complete env payload).2.isSome = true → (t.complete env payload).1.trace.completed = true) := by
  unfold Traced.complete
  cases statusIn payload with
  | none => exact ⟨ht, by simp⟩
  | some status =>
    cases artifactsIn payload with
    | none => exact ⟨ht, by simp⟩
    | some given =>
      have hsaved := ((calm_saveBundle env t payload given).trans (calm_saveFile env
        (t.saveBundle env payload given).1 payload (t.saveBundle env payload given).2)).counted ht
      simp only
      split
      · exact ⟨hsaved, by simp⟩
      · next hfinish =>
        obtain ⟨hdone, hcounted⟩ := finish_spec env hfinish hsaved
        exact ⟨hcounted, fun _ => hdone⟩

omit [Host] in
theorem completions_leave (t : Traced) (error : Dict) (ht : Counted t) :
    completions (leave env t error).attempted = 1 := by
  unfold leave
  unfold Counted at ht
  split_ifs with hdone
  · rwa [if_pos hdone] at ht
  · rw [if_neg hdone] at ht
    simp only [Traced.emit, completions_append, ht, TraceEvent.new, if_true, Nat.zero_add]

omit [EventHost] in
theorem statusIn_isSome {payload : Dict} (h : (dumpsPlain (.obj payload)).isSome = true) :
    (statusIn payload).isSome = true := by
  rw [dumpsPlain, Option.isSome_map, Option.isSome_iff_exists] at h
  obtain ⟨ts, hts⟩ := h
  rw [statusIn, strOf, Option.isSome_map, Dict.getOr]
  cases hstatus : Dict.get payload (txt "status") with
  | none => rfl
  | some v =>
    have hv := dumpsPlain_get hts hstatus
    by_cases htruthy : v.truthy = true <;> simp [htruthy, hv, dumpsPlain]

theorem complete_isSome_of_open {t : Traced} (hopen : t.trace.completed = false) (payload : Dict) :
    (t.complete env payload).2.isSome = true ↔ Completable payload := by
  rw [complete_isSome_iff, hopen, Completable]
  simp only [Bool.false_eq_true, false_or]
  exact ⟨fun h => h.2, fun h => ⟨statusIn_isSome h.2.1, h⟩⟩

/-! ### The payload in its envelope -/

omit [Host] [EventHost] in
theorem without_foldl_set {ks : List Str} (items : Dict) (hitems : ∀ p ∈ items, p.1 ∈ ks) (d : Dict) :
    Dict.without ks (items.foldl (fun result item => Dict.set result item.1 item.2) d) =
      Dict.without ks d := by
  induction items generalizing d with
  | nil => rfl
  | cons p items ih =>
    rw [List.forall_mem_cons] at hitems
    rw [List.foldl_cons, ih hitems.2, Dict.without_set hitems.1]

omit [Host] [EventHost] in
theorem without_enveloped (t : Traced) (payload : Dict) (durationMs : ℤ) (cache : Option Dict)
    (artifacts : List Json) :
    Dict.without ENVELOPE (t.enveloped payload durationMs cache artifacts) =
      Dict.without ENVELOPE payload := by
  unfold Traced.enveloped
  refine without_foldl_set _ (fun p hp => ?_) payload
  have hkeys : p.1 ∈ ENVELOPE := by
    have hmem := List.mem_map_of_mem (f := Prod.fst) hp
    simpa [ENVELOPE] using hmem
  exact hkeys

theorem complete_result {t : Traced} {payload result : Dict}
    (h : (t.complete env payload).2 = some result) :
    Dict.without ENVELOPE result = Dict.without ENVELOPE payload := by
  unfold Traced.complete at h
  cases hstatus : statusIn payload with
  | none => simp [hstatus] at h
  | some status =>
    cases hgiven : artifactsIn payload with
    | none => simp [hstatus, hgiven] at h
    | some given =>
      simp only [hstatus, hgiven] at h
      split at h
      · simp at h
      · rw [← Option.some.inj h]
        exact without_enveloped _ _ _ _ _

/-! ### A traced turn -/

/-- Two turns with the same sessions and, but for the envelope, the same result. -/
def Alike (o o' : Outcome) : Prop :=
  o.store = o'.store ∧ o.result.map (Dict.without ENVELOPE) = o'.result.map (Dict.without ENVELOPE)

omit [Host] [EventHost] in
theorem calm_recordProvider {t t' : Traced} {a : Answer} (h : recordProvider env t a = some t') :
    Calm t t' := by
  unfold recordProvider at h
  cases htelemetry : a.telemetry with
  | none =>
    rw [htelemetry] at h
    rw [← Option.some.inj h]
    exact ⟨rfl, rfl⟩
  | some telemetry =>
    simp only [htelemetry] at h
    split_ifs at h
    · rw [← Option.some.inj h]
      exact ⟨rfl, rfl⟩
    · obtain ⟨output, -, rfl⟩ := Option.map_eq_some_iff.mp h
      exact calm_recordSpans env t telemetry _ _ _ output
    · obtain ⟨output, -, rfl⟩ := Option.map_eq_some_iff.mp h
      exact calm_recordSpans env t telemetry _ _ _ output

theorem counted_traced (t : Traced) (store : SessionStore) (key question : Str) (a : Answer)
    (payload : Dict) (failure : Str) (ht : Counted t) :
    Counted (traced env t store key question a payload failure).1 := by
  unfold traced
  cases hrecord : recordProvider env t a with
  | none => exact (counted_complete env t (sdkError failure) ht).1
  | some t' =>
    have hcompleted := (counted_complete env t' payload
      ((calm_recordProvider env hrecord).counted ht)).1
    simp only
    split_ifs
    · exact hcompleted
    · exact (counted_complete env _ (sdkError failure) hcompleted).1

theorem counted_completes (t : Traced) (payloads : List Dict) (ht : Counted t) :
    Counted (payloads.foldl (fun t p => (t.complete env p).1) t) :=
  Machine.foldl_invariant _ (fun s p hs => (counted_complete env s p hs).1) ht payloads

/-- Tracing leaves a turn of `ask` as it is, without an exception of its own and with one
completion however often `complete` is called, exactly when the answer and the payload can
be encoded. -/
theorem transparent_iff (t : Traced) (hopen : t.trace.completed = false)
    (hnone : completions t.attempted = 0) (store : SessionStore) (key question : Str) (a : Answer)
    (payload : Dict) (failure : Str) :
    ((recordProvider env t a).isSome = true ∧
        (∀ t' ∈ recordProvider env t a, (t'.complete env payload).2.isSome = true) ∧
        Alike (traced env t store key question a payload failure).2
          (untraced store key question a payload) ∧
        ∀ (more : List Dict) (error : Dict), completions (leave env
          (more.foldl (fun t p => (t.complete env p).1)
            (traced env t store key question a payload failure).1) error).attempted = 1) ↔
      Recordable a ∧ Completable payload := by
  have hcounted : Counted t := by
    unfold Counted
    rw [hnone, hopen]
    rfl
  have hone : ∀ (more : List Dict) (error : Dict), completions (leave env
      (more.foldl (fun t p => (t.complete env p).1)
        (traced env t store key question a payload failure).1) error).attempted = 1 :=
    fun more error => completions_leave env _ error (counted_completes env _ more
      (counted_traced env t store key question a payload failure hcounted))
  refine ⟨fun ⟨hrecord, hcomplete, _⟩ => ?_, fun ⟨hrecord, hcomplete⟩ => ?_⟩
  · refine ⟨(recordProvider_isSome_iff env t a).mp hrecord, ?_⟩
    obtain ⟨t', ht'⟩ := Option.isSome_iff_exists.mp hrecord
    have hopen' := (calm_recordProvider env ht').1.trans hopen
    exact (complete_isSome_of_open env hopen' payload).mp (hcomplete t' ht')
  · have hsome := (recordProvider_isSome_iff env t a).mpr hrecord
    obtain ⟨t', ht'⟩ := Option.isSome_iff_exists.mp hsome
    have hopen' := (calm_recordProvider env ht').1.trans hopen
    have hdone := (complete_isSome_of_open env hopen' payload).mpr hcomplete
    refine ⟨hsome, fun t'' ht'' => ?_, ?_, hone⟩
    · rw [Option.mem_def, ht', Option.some.injEq] at ht''
      exact ht'' ▸ hdone
    · obtain ⟨result, hresult⟩ := Option.isSome_iff_exists.mp hdone
      simp only [traced, untraced, ht', Alike, if_true, hresult, Option.isSome_some,
        Option.map_some, complete_result env hresult, and_self]

end

/-- A server in safe mode whose log takes every event and whose texts hold no secret. -/
def Env.safe : Env where
  mode := txt "safe"
  project := txt "p"
  serverInstance := txt "i"
  eventId n := txt "e" ++ natStr n
  spanId n := txt "s" ++ natStr n
  now _ := newYear
  elapsedMs _ := 1
  startedAt _ := none
  accepts _ _ := true
  storeBundle _ := none
  sha256 _ := txt "0"
  redactText s := (s, 0)
  isSecretKey _ := false
  floatSum x _ := x
  round12 x := x

/-- A call of `ask` that has just begun. -/
def begun : Traced :=
  ⟨⟨txt "ask", [], none, txt "t", txt "s", false, false, 0, 0, false, none, none, [], none⟩, []⟩

/-- What the bridge returns for an answer. -/
def answered (text : Str) : Answer :=
  ⟨⟨⟨.ok, [], text, [], txt "m"⟩, none, false⟩,
    some ⟨txt "fable", none, none, some (txt "sdk"), none, none, none, none, none, 0, none, none, none,
      none, none, none, 0, [], none, [], by simp⟩⟩

/-- The payload of an answer. -/
def okPayload (prose : Str) : Dict := [(txt "status", .str (txt "ok")), (txt "answer", .str prose)]

/-- A plain answer. -/
theorem transparent_iff_yes : let : Host := Host.ascii; let : EventHost := EventHost.iso
    ((recordProvider .safe begun (answered (txt "Yes."))).isSome = true ∧
        (∀ t' ∈ recordProvider .safe begun (answered (txt "Yes.")),
          (t'.complete .safe (okPayload (txt "Yes."))).2.isSome = true) ∧
        Alike (traced .safe begun (fun _ => none) (txt "default") (txt "?") (answered (txt "Yes."))
            (okPayload (txt "Yes.")) []).2
          (untraced (fun _ => none) (txt "default") (txt "?") (answered (txt "Yes."))
            (okPayload (txt "Yes."))) ∧
        ∀ (more : List Dict) (error : Dict), completions (leave .safe
          (more.foldl (fun t p => (t.complete .safe p).1)
            (traced .safe begun (fun _ => none) (txt "default") (txt "?") (answered (txt "Yes."))
              (okPayload (txt "Yes.")) []).1) error).attempted = 1) ↔
      Recordable (answered (txt "Yes.")) ∧ Completable (okPayload (txt "Yes.")) := by
  let : Host := Host.ascii
  let : EventHost := EventHost.iso
  exact transparent_iff .safe begun rfl rfl (fun _ => none) (txt "default") (txt "?")
    (answered (txt "Yes.")) (okPayload (txt "Yes.")) []

/-- An answer of one lone surrogate: the turn is recorded without a trace and lost with
one. -/
theorem surrogate_loses_turn : let : Host := Host.ascii; let : EventHost := EventHost.iso
    (recordProvider .safe begun (answered [0xD800])).isSome = false ∧
      ((untraced (fun _ => none) (txt "default") (txt "?") (answered [0xD800])
        (okPayload [0xD800])).store (txt "default")).map (fun s => s.turns) =
          some [⟨txt "?", [0xD800], []⟩] ∧
      ((traced .safe begun (fun _ => none) (txt "default") (txt "?") (answered [0xD800])
        (okPayload [0xD800]) (txt "UnicodeEncodeError")).2.store (txt "default")).map
          (fun s => s.turns) = none := by
  decide

end AskFable.Trace

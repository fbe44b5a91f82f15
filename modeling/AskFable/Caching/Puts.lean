import AskFable.Chain.Run
import AskFable.Council.Trust
import AskFable.Debate.Provenance

/-!
# What is put in the cache

Councils, chains, debates and calls of a single model each decide by themselves whether their
payload is put in the cache. Whatever becomes of the members, what is cached is the answer of
the one whose role it was to decide, and no part of it was cut off.
-/
namespace AskFable.Caching
open AskFable.Text AskFable.Python AskFable.Debate AskFable.Extract

/-! ### A single model -/

structure SinglePayload where
  model : Str
  answer : Str
  sidecar : Option Sidecar.Fields
  missingSidecar : Bool
  /-- What the bridge says beside the answer. -/
  extras : Dict
  thinking : Str
  /-- Whether the payload was put in the cache. -/
  cached : Bool

inductive SingleOutcome
  | refused (text : Str)
  | error (kind detail model : Str) (extras : Dict)
  | answered (p : SinglePayload)

/-- `_handle_single` after its guard and its cache lookup; `cacheResult` says whether the tool
uses the cache at all. -/
def single [Host] (cacheResult : Bool) (model : Str) (res : Result) (extras : Dict) :
    Except JsonText.LoadError SingleOutcome :=
  match res.status with
  | .refused => .ok (.refused res.text)
  | .error =>
    .ok (.error res.kind res.text model
      (Dict.without [txt "status", txt "kind", txt "detail", txt "model"] extras))
  | .ok =>
    (Sidecar.extract res.text).map fun (prose, sc) =>
      .answered
        { model := res.model
          answer := prose
          sidecar := sc
          missingSidecar := sc.isNone
          extras := Dict.without
            [txt "status", txt "model", txt "answer", txt "sidecar", txt "missing_sidecar"] extras
          thinking := res.thinking
          cached := cacheResult && res.kind ≠ txt "truncated" }

/-! ### Who decides -/

section
variable [Host]

/-- The model whose answer was cached finished it. -/
def ModelDecides (res : Result) (p : SinglePayload) : Prop :=
  res.status = .ok ∧ res.kind ≠ txt "truncated" ∧ p.model = res.model ∧
    ∃ sc, Sidecar.extract res.text = .ok (p.answer, sc)

/-- The last stage of the chain answered, and no stage that answered was cut off. -/
def LastStageDecides (s : Chain.Setup) (replies : List Result) (p : Chain.Payload) : Prop :=
  ∃ steps last, Chain.runStages s.selected [] replies = .ok (steps ++ [last], true) ∧
    (steps ++ [last]).map Chain.Step.key = s.selected ∧ last.isOk = true ∧
      (p.answer = last.prose ∧ p.answeredBy = last.res.model) ∧
        (p.fallback = none ∧ p.degraded = false) ∧
          ∀ t ∈ steps ++ [last], t.isOk = true → t.isPartial = false

/-- The adjudicator answered, or a proposer whose position was settled, and no turn that was
answered was cut off. -/
def TurnDecides (replies : List Reply) (p : Debate.Payload) : Prop :=
  ∃ turns t, Played replies turns ∧ t ∈ turns ∧ t.isOk = true ∧
    (p.answer = t.reply.prose ∧ p.answeredBy = t.reply.res.model) ∧
      (t.role = .adjudicate ∨ (p.debate.resolution = .conceded ∨ p.debate.resolution = .converged) ∧
        (own turns).getLast? = some t) ∧
          ∀ u ∈ turns, u.isOk = true → u.isPartial = false

/-- The synthesizer answered: the one that was asked for, or Fable standing in for one that
could not be reached or failed. Neither it nor a panelist that answered was cut off; panelists
may be missing. -/
def SynthesizerDecides (site : Council.Site) (panel : Council.Panel) (synthKey : Str)
    (run : Str → Result) (p : Council.Payload) : Prop :=
  ∃ key, (Council.synthesize site run key).status = .ok ∧
    (∃ sc, Sidecar.extract (Council.synthesize site run key).text = .ok (p.answer, sc)) ∧
      p.synthesizer = some (site.label key) ∧
        ((key = synthKey ∧ p.synthesis.map (·.fallback) = some none) ∨
          key = Council.SYNTHESIZER ∧ p.synthesis.map (·.fallback) = some (some (txt "fable")) ∧
            (site.available synthKey = false ∨
              (Council.synthesize site run synthKey).status ≠ .ok)) ∧
          Council.isCutOff (Council.synthesize site run key) = false ∧
            (∀ m ∈ panel.ok, Council.isCutOff m.toResult = false) ∧
              p.envelope.cutOff = [] ∧
                p.envelope.degraded = decide (panel.ok.length < panel.requested)

theorem single_cached {cacheResult : Bool} {model : Str} {res : Result} {extras : Dict}
    {p : SinglePayload} (h : single cacheResult model res extras = .ok (.answered p))
    (hcached : p.cached = true) : ModelDecides res p := by
  unfold single at h
  cases hstatus : res.status with
  | refused => simp [hstatus] at h
  | error => simp [hstatus] at h
  | ok =>
    simp only [hstatus] at h
    obtain ⟨parts, hparts, hp⟩ := Fallible.map_eq_ok.mp h
    obtain rfl := SingleOutcome.answered.inj hp
    simp only [Bool.and_eq_true, decide_eq_true_eq] at hcached
    exact ⟨hstatus, hcached.2, rfl, parts.2, hparts⟩

theorem debate_cached {s : Debate.Setup} {replies : List Reply} {p : Debate.Payload}
    (h : debate s replies = .decided p) (hcached : p.cached = true) : TurnDecides replies p := by
  have hturn : (Outcome.decided p).FromTurn replies := by
    cases replies with
    | nil => nomatch h
    | cons a rest =>
      rw [debate] at h
      cases ha : a.res.status with
      | refused => simp [ha] at h
      | error => simp [ha] at h
      | ok =>
        rw [ha] at h
        rw [← h]
        exact refute_fromTurn rest ha
  obtain ⟨turns, t, hplayed, hsource⟩ := hturn
  obtain ⟨hdegraded, havailable, hwhole⟩ := hsource.cache hcached
  refine ⟨turns, t, hplayed, hsource.played, hsource.ok, hsource.answer, ?_, hwhole⟩
  by_cases hrole : t.role = .adjudicate
  · exact Or.inl hrole
  · have hjudged : p.debate.resolution.judged = false := by
      rw [Bool.eq_false_iff]
      exact fun hjudged => hrole (hsource.judge.mpr hjudged)
    refine Or.inr ⟨?_, hsource.proposer hrole⟩
    revert hjudged hdegraded havailable
    cases p.debate.resolution <;> simp [Resolution.judged, Resolution.degraded]

theorem head_of_ok {s : Chain.Setup} {last survivor : Chain.Step} {rescue : Result}
    {h : Chain.Head} (hhead : Chain.head s last survivor rescue = .ok h) (hnone : h.fallback = none) :
    last.isOk = true ∧ h.answer = last.prose ∧ h.answeredBy = last.res.model := by
  unfold Chain.head at hhead
  by_cases hlast : last.isOk = true
  · rw [if_pos hlast] at hhead
    obtain rfl := Except.ok.inj hhead
    exact ⟨hlast, rfl, rfl⟩
  · rw [if_neg hlast] at hhead
    exfalso
    split_ifs at hhead
    · rw [← Except.ok.inj hhead] at hnone
      nomatch hnone
    · obtain ⟨parts, -, rfl⟩ := Fallible.map_eq_ok.mp hhead
      nomatch hnone
    · rw [← Except.ok.inj hhead] at hnone
      nomatch hnone

theorem chain_cached {s : Chain.Setup} {replies : List Result} {rescue : Result} {p : Chain.Payload}
    (h : Chain.chain s replies rescue = .ok (.answered p)) (hcached : p.cached = true) :
    LastStageDecides s replies p := by
  unfold Chain.chain at h
  cases hrun : Chain.runStages s.selected [] replies with
  | error e =>
    rw [hrun] at h
    nomatch h
  | ok ran =>
    obtain ⟨steps, complete⟩ := ran
    rw [hrun] at h
    change (if complete = false then _ else _) = _ at h
    by_cases hcomplete : complete = false
    · rw [if_pos hcomplete] at h
      nomatch h
    · rw [if_neg hcomplete] at h
      rw [Bool.not_eq_false] at hcomplete
      subst hcomplete
      cases hlast : steps.getLast? with
      | none =>
        rw [hlast] at h
        nomatch h
      | some last =>
        cases hsurvivor : (steps.filter Chain.Step.isOk).getLast? with
        | none =>
          rw [hlast, hsurvivor] at h
          unfold Chain.unanswered at h
          simp only at h
          split at h <;> nomatch h
        | some survivor =>
          rw [hlast, hsurvivor] at h
          obtain ⟨hd, hhead, hp⟩ := Fallible.map_eq_ok.mp h
          obtain rfl := Chain.Outcome.answered.inj hp
          obtain ⟨front, hfront⟩ := List.getLast?_eq_some_iff.mp hlast
          subst hfront
          obtain ⟨hnone, hcut⟩ : hd.fallback = none ∧
              (((front ++ [last]).filter Chain.Step.isOk).filter Chain.Step.isPartial).map
                (·.res.model) = [] := by
            simpa only [Chain.payload, Bool.and_eq_true, Option.isNone_iff_eq_none,
              List.isEmpty_iff] using hcached
          obtain ⟨hok, hanswer⟩ := head_of_ok hhead hnone
          have hdegraded : (Chain.payload s (front ++ [last]) hd).degraded = false := by
            change (!List.isEmpty _) = false
            rw [hcut]
            rfl
          refine ⟨front, last, hrun, (Chain.runStages_spec hrun).1, hok, hanswer,
            ⟨hnone, hdegraded⟩, fun t ht htok => ?_⟩
          have hwhole := List.filter_eq_nil_iff.mp (List.map_eq_nil_iff.mp hcut) t
            (List.mem_filter.mpr ⟨ht, htok⟩)
          simpa using hwhole

omit [Host] in
/-- Who made the synthesis. -/
theorem ladder_spec (site : Council.Site) (run : Str → Result) (synthKey : Str) :
    (Council.ladder site run synthKey).result =
        Council.synthesize site run (Council.ladder site run synthKey).used ∧
      (((Council.ladder site run synthKey).used = synthKey ∧
          (Council.ladder site run synthKey).fallback = none) ∨
        (Council.ladder site run synthKey).used = Council.SYNTHESIZER ∧
          (Council.ladder site run synthKey).fallback = some (txt "fable") ∧
            (site.available synthKey = false ∨
              (Council.synthesize site run synthKey).status ≠ .ok)) := by
  unfold Council.ladder
  by_cases hreach : synthKey = Council.SYNTHESIZER ∨ site.available synthKey = true
  · simp only [hreach, if_true]
    by_cases hfailed : (Council.synthesize site run synthKey).status ≠ .ok ∧
        synthKey ≠ Council.SYNTHESIZER
    · simp [hfailed]
    · simp [hfailed]
  · simp only [hreach, if_false, ne_eq, not_true_eq_false, and_false]
    rw [not_or, Bool.not_eq_true] at hreach
    simp [hreach.2]

theorem merged_cached {site : Council.Site} {panel : Council.Panel} {synthKey : Str}
    {run : Str → Result} {first : Council.OracleResult} {others : List Council.OracleResult}
    {p : Council.Payload} (hok : panel.ok = first :: others)
    (h : Council.merged site panel synthKey run first others = .ok p) (hcached : p.cached = true) :
    SynthesizerDecides site panel synthKey run p := by
  rw [Council.merged, ← hok] at h
  cases hvotes : Council.extracted panel.ok with
  | error e =>
    rw [hvotes] at h
    cases h
  | ok votes =>
    rw [hvotes] at h
    obtain ⟨parts, hparts, rfl⟩ := Fallible.map_eq_ok.mp h
    obtain ⟨hresult, hwho⟩ := ladder_spec site run synthKey
    generalize Council.ladder site run synthKey = synth at *
    simp only [Bool.and_eq_true, decide_eq_true_eq, List.isEmpty_iff, Bool.not_eq_true'] at hcached
    obtain ⟨⟨hmade, hcut⟩, hwhole⟩ := hcached
    have hsynthesized := hresult ▸ hmade
    obtain ⟨prose, sc⟩ := parts
    refine ⟨synth.used, hsynthesized, ⟨sc, ?_⟩, if_pos hmade, ?_, hresult ▸ hwhole,
      (Council.cutOffModels_eq_nil.mp hcut).1, hcut, ?_⟩
    · rw [if_pos hmade, hresult] at hparts
      exact hparts
    · simpa [hmade] using hwho
    · simp [Council.councilEnvelope, hcut]

theorem council_cached {site : Council.Site} {panel : Council.Panel} {synthKey : Str}
    {run : Str → Result} {p : Council.Payload}
    (h : Council.council site panel synthKey run = .ok (.answered p)) (hcached : p.cached = true) :
    SynthesizerDecides site panel synthKey run p := by
  rw [Council.council] at h
  cases hok : panel.ok with
  | nil =>
    rw [hok] at h
    dsimp only at h
    split at h <;> cases h
  | cons r rest =>
    rw [hok] at h
    cases rest with
    | nil =>
      obtain ⟨q, hq, hp⟩ := Fallible.map_eq_ok.mp h
      obtain rfl := Council.Outcome.answered.inj hp
      obtain ⟨parts, -, rfl⟩ := Fallible.map_eq_ok.mp hq
      cases hcached
    | cons r' rest =>
      obtain ⟨q, hq, hp⟩ := Fallible.map_eq_ok.mp h
      obtain rfl := Council.Outcome.answered.inj hp
      exact merged_cached hok hq hcached

end

end AskFable.Caching

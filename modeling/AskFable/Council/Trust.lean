import AskFable.Council.Run
import AskFable.General.Fallible

/-!
# Whether the trust signals agree

A strong consensus, the quorum, the degraded flag and the next action are computed from
different parts of the panel. A strong rating is first put in terms of the seats
themselves; what it does not look at is whether an answer was cut off.
-/
namespace AskFable.Council
open AskFable.Text AskFable.Python AskFable.Debate AskFable.Extract AskFable.Fallible

section
variable [Host]

/-- The sidecar of an answer, where it can be read. -/
def sidecarOf (r : OracleResult) : Option Sidecar.Fields :=
  (Sidecar.extract r.text).toOption.bind (·.2)

def recommends (r : OracleResult) : Option Str := (sidecarOf r).bind (·.recommendation)

def confidenceOf (r : OracleResult) : Option Str := (sidecarOf r).bind (·.confidence)

variable (site : Site)

/-- Every requested seat answered and recommends the same, not all of them with low
confidence, and they come from two labs. -/
structure Unanimous (panel : Panel) : Prop where
  seated : panel.unknown = []
  two : 2 ≤ panel.results.length
  labs : 2 ≤ distinctLabs site (panel.results.map (·.key))
  same : ∃ v, ∀ r ∈ panel.results, r.isOk = true ∧ recommends r = some v
  sure : ¬∀ r ∈ panel.results, confidenceOf r = some (txt "low")

/-- No answer of the panel was cut off, nor the synthesis. -/
def Whole (panel : Panel) (synth : Result) : Prop :=
  (∀ r ∈ panel.results, isCutOff r.toResult = false) ∧ isCutOff synth = false

/-- What the signals of a payload may promise. -/
structure TrustAgrees (panel : Panel) (synth : Result) (p : Payload) : Prop where
  strong : p.consensus = .strong →
    p.envelope.degraded = false ∧ p.envelope.quorum = (panel.requested, panel.requested) ∧
      2 ≤ panel.requested ∧ panel.unknown = [] ∧
      (∃ v, ∀ r ∈ panel.results, r.isOk = true ∧ recommends r = some v) ∧
      2 ≤ p.envelope.independentLabs
  safe : p.envelope.recommendedNextAction = .safeToAct →
    p.consensus = .strong ∧ p.envelope.degraded = false ∧
      (p.synthesizer ≠ none ∧ synth.status = .ok) ∧ p.materialDisagreement = false

theorem voters_eq {ok : List OracleResult} {panel : List (OracleResult × Str × Option Sidecar.Fields)}
    (h : extracted ok = .ok panel) :
    voters panel = ok.filterMap fun r => (sidecarOf r).filter (·.recommendation.isSome) := by
  induction ok generalizing panel with
  | nil => cases h; rfl
  | cons r rs ih =>
    rw [extracted] at h
    cases hr : Sidecar.extract r.text with
    | error e => rw [hr] at h; cases h
    | ok parts =>
      cases hrs : extracted rs with
      | error e => rw [hr, hrs] at h; cases h
      | ok rest =>
        rw [hr, hrs] at h
        cases h
        have hside : sidecarOf r = parts.2 := by simp [sidecarOf, hr, Except.toOption]
        have ih := ih hrs
        rw [voters] at ih ⊢
        simp only [List.filterMap_cons, ih, hside]

/-- The votes of a panel are the recommendations of its answers. -/
theorem recs_eq {ok : List OracleResult} {panel : List (OracleResult × Str × Option Sidecar.Fields)}
    (h : extracted ok = .ok panel) : recs panel = ok.filterMap recommends := by
  rw [recs, voters_eq h, List.filterMap_filterMap]
  refine congrArg (List.filterMap · ok) (funext fun r => ?_)
  rw [recommends]
  cases sidecarOf r with
  | none => rfl
  | some sc => cases hrec : sc.recommendation <;> simp [Option.filter, hrec]

theorem confs_eq {ok : List OracleResult} {panel : List (OracleResult × Str × Option Sidecar.Fields)}
    (h : extracted ok = .ok panel) (hall : ∀ r ∈ ok, (recommends r).isSome) :
    confs panel = ok.map confidenceOf := by
  rw [confs, voters_eq h, List.map_filterMap, ← List.filterMap_eq_map]
  refine List.filterMap_congr fun r hr => ?_
  have hsome := hall r hr
  rw [recommends] at hsome
  cases hside : sidecarOf r with
  | none => simp [hside] at hsome
  | some sc =>
    rw [hside] at hsome
    simp only [Option.bind_some] at hsome
    simp [confidenceOf, hside, Option.filter, hsome]

omit [Host] in
theorem hedged_iff {cs : List (Option Str)} :
    hedged cs.length cs = true ↔ cs ≠ [] ∧ ∀ c ∈ cs, c = some (txt "low") := by
  have hlow : txt "low" ≠ [] := by decide
  simp only [hedged, Bool.and_eq_true, Bool.not_eq_true', List.isEmpty_eq_false_iff,
    decide_eq_true_eq, List.all_eq_true, present, List.filterMap_length_eq_length,
    List.mem_filterMap]
  constructor
  · rintro ⟨⟨hne, hsome⟩, hall⟩
    refine ⟨fun hnil => hne (by simp [hnil]), fun c hc => ?_⟩
    obtain ⟨v, hv⟩ := Option.isSome_iff_exists.mp (hsome c hc)
    rw [(Option.filter_eq_some_iff.mp hv).1, hall v ⟨c, hc, hv⟩]
  · rintro ⟨hne, hall⟩
    have hkept : ∀ c ∈ cs, c.filter (· ≠ []) = some (txt "low") := fun c hc => by
      simp [hall c hc, Option.filter, hlow]
    refine ⟨⟨fun hnil => ?_, fun c hc => by rw [hkept c hc]; rfl⟩, ?_⟩
    · obtain ⟨c, hc⟩ := List.exists_mem_of_ne_nil cs hne
      have hmem : txt "low" ∈ cs.filterMap fun c => c.filter (· ≠ []) :=
        List.mem_filterMap.mpr ⟨c, hc, hkept c hc⟩
      rw [hnil] at hmem
      nomatch hmem
    · rintro v ⟨c, hc, hv⟩
      rw [hkept c hc] at hv
      exact (Option.some.inj hv).symm

/-- As many votes as seats means that every seat ran, answered and voted. -/
theorem all_voted_iff (panel : Panel) :
    (panel.ok.filterMap recommends).length = panel.requested ↔
      panel.unknown = [] ∧ ∀ r ∈ panel.results, r.isOk = true ∧ (recommends r).isSome := by
  have hvotes := List.length_filterMap_le recommends panel.ok
  have hok : panel.ok.length ≤ panel.results.length := List.length_filter_le _ _
  rw [Panel.requested]
  constructor
  · intro h
    have hall : panel.ok.length = panel.results.length := by omega
    have heach := List.filterMap_length_eq_length.mp
      (show (panel.ok.filterMap recommends).length = panel.ok.length by omega)
    refine ⟨List.length_eq_zero_iff.mp (by omega), fun r hr => ?_⟩
    have hisOk := List.length_filter_eq_length_iff.mp hall r hr
    exact ⟨hisOk, heach r (List.mem_filter.mpr ⟨hr, hisOk⟩)⟩
  · rintro ⟨hunknown, hall⟩
    have hsame : panel.ok = panel.results := List.filter_eq_self.mpr fun r hr => (hall r hr).1
    rw [hsame, hunknown, List.length_nil, Nat.add_zero]
    exact List.filterMap_length_eq_length.mpr fun r hr => (hall r hr).2

/-- A consensus is rated strong for the unanimous panels and no other. -/
theorem rated_strong_iff {panel : Panel}
    {votes : List (OracleResult × Str × Option Sidecar.Fields)}
    (h : extracted panel.ok = .ok votes) :
    (rated site panel.ok panel.requested votes).1 = .strong ↔ Unanimous site panel := by
  have hrated : (rated site panel.ok panel.requested votes).1 = .strong ↔
      (consensus (recs votes) (some panel.ok.length) (confs votes) (some panel.requested)).1 =
        .strong ∧ 2 ≤ distinctLabs site (panel.ok.map (·.key)) := by
    rw [rated]
    dsimp only
    split_ifs with hgate
    · simp [hgate]
    · exact ⟨fun hstrong => ⟨hstrong, by_contra fun hlabs => hgate ⟨hstrong, by omega⟩⟩, And.left⟩
  rw [hrated, consensus_strong_iff, recs_eq h, all_voted_iff]
  constructor
  · rintro ⟨⟨htwo, ⟨hunknown, hall⟩, ⟨v, hv⟩, hlow⟩, hlabs⟩
    have hsame : panel.ok = panel.results := List.filter_eq_self.mpr fun r hr => (hall r hr).1
    rw [hsame] at h htwo hv hlow hlabs
    refine ⟨hunknown, le_trans htwo (List.length_filterMap_le _ _), hlabs,
      ⟨v, fun r hr => ⟨(hall r hr).1, ?_⟩⟩, fun hevery => ?_⟩
    · obtain ⟨x, hx⟩ := Option.isSome_iff_exists.mp (hall r hr).2
      rw [hx, hv x (List.mem_filterMap.mpr ⟨r, hr, hx⟩)]
    · have hlength := List.filterMap_length_eq_length.mpr fun r hr => (hall r hr).2
      have hcount : (panel.results.map confidenceOf).length = panel.results.length :=
        List.length_map _
      rw [hlength, confs_eq h fun r hr => (hall r hr).2,
        ← hcount, Bool.eq_false_iff] at hlow
      refine hlow (hedged_iff.mpr ⟨fun hnil => panel.ran (List.map_eq_nil_iff.mp hnil), ?_⟩)
      simpa using hevery
  · rintro ⟨hunknown, htwo, hlabs, ⟨v, hv⟩, hsure⟩
    have hsame : panel.ok = panel.results := List.filter_eq_self.mpr fun r hr => (hv r hr).1
    have hall : ∀ r ∈ panel.results, (recommends r).isSome := fun r hr => by simp [(hv r hr).2]
    have hlength := List.filterMap_length_eq_length.mpr hall
    have hcount : (panel.results.map confidenceOf).length = panel.results.length :=
      List.length_map _
    rw [hsame] at h ⊢
    refine ⟨⟨by omega, ⟨hunknown, fun r hr => ⟨(hv r hr).1, hall r hr⟩⟩, ⟨v, fun x hx => ?_⟩, ?_⟩,
      hlabs⟩
    · obtain ⟨r, hr, hx⟩ := List.mem_filterMap.mp hx
      rw [(hv r hr).2] at hx
      exact (Option.some.inj hx).symm
    · rw [hlength, confs_eq h hall, ← hcount,
        Bool.eq_false_iff]
      refine fun hhedged => hsure fun r hr => ?_
      exact (hedged_iff.mp hhedged).2 _ (List.mem_map.mpr ⟨r, hr, rfl⟩)

/-- What a merged payload shows of its panel. -/
theorem merged_spec {panel : Panel} {synthKey : Str} {run : Str → Result} {r : OracleResult}
    {rest : List OracleResult} {p : Payload} (hok : panel.ok = r :: rest)
    (h : merged site panel synthKey run r rest = .ok p) :
    ∃ votes, extracted panel.ok = .ok votes ∧
      rated site panel.ok panel.requested votes = (p.consensus, p.materialDisagreement) ∧
      (p.synthesizer ≠ none → (ladder site run synthKey).result.status = .ok) ∧
      p.envelope = councilEnvelope site panel.ok panel.requested p.synthesizer
        (some p.consensus) p.materialDisagreement
        (cutOffModels panel.ok (ladder site run synthKey).result) := by
  rw [merged, ← hok] at h
  cases hvotes : extracted panel.ok with
  | error e => rw [hvotes] at h; cases h
  | ok votes =>
    rw [hvotes] at h
    obtain ⟨parts, -, rfl⟩ := map_eq_ok.mp h
    exact ⟨votes, rfl, rfl, fun hmade => by simpa using hmade, rfl⟩

omit [Host] in
theorem cutOffModels_eq_nil {ok : List OracleResult} {synth : Result} :
    cutOffModels ok synth = [] ↔
      (∀ r ∈ ok, isCutOff r.toResult = false) ∧ isCutOff synth = false := by
  simp [cutOffModels]

/-- A lone answer promises nothing. -/
theorem lone_trust {panel : Panel} {synthKey : Str} {run : Str → Result} {r : OracleResult}
    {p : Payload} (hok : panel.ok = [r]) (h : lone site panel r = .ok p) :
    TrustAgrees panel (ladder site run synthKey).result p ↔
      (Unanimous site panel → Whole panel (ladder site run synthKey).result) := by
  obtain ⟨parts, -, rfl⟩ := map_eq_ok.mp h
  refine iff_of_true ⟨by simp, by simp [councilEnvelope, nextAction]⟩ fun hunanimous => ?_
  obtain ⟨v, hv⟩ := hunanimous.same
  have hsame : panel.ok = panel.results := List.filter_eq_self.mpr fun x hx => (hv x hx).1
  have htwo := hunanimous.two
  rw [← hsame, hok] at htwo
  simp at htwo

theorem merged_trust {panel : Panel} {synthKey : Str} {run : Str → Result} {r : OracleResult}
    {rest : List OracleResult} {p : Payload} (hok : panel.ok = r :: rest)
    (h : merged site panel synthKey run r rest = .ok p) :
    TrustAgrees panel (ladder site run synthKey).result p ↔
      (Unanimous site panel → Whole panel (ladder site run synthKey).result) := by
  obtain ⟨votes, hvotes, hrated, hmade, henvelope⟩ := merged_spec site hok h
  have hstrong : p.consensus = .strong ↔ Unanimous site panel := by
    rw [← rated_strong_iff site hvotes, hrated]
  have hdegraded : p.envelope.degraded = false ↔ panel.requested ≤ panel.ok.length ∧
      cutOffModels panel.ok (ladder site run synthKey).result = [] := by
    simp [henvelope, councilEnvelope]
  constructor
  · intro htrust hunanimous
    obtain ⟨hwhole, -⟩ := htrust.strong (hstrong.mpr hunanimous)
    obtain ⟨hcut, hsynth⟩ := cutOffModels_eq_nil.mp (hdegraded.mp hwhole).2
    obtain ⟨v, hv⟩ := hunanimous.same
    exact ⟨fun x hx => hcut x (List.mem_filter.mpr ⟨hx, (hv x hx).1⟩), hsynth⟩
  · intro hwhole
    refine ⟨fun hrating => ?_, fun hsafe => ?_⟩
    · have hunanimous := hstrong.mp hrating
      obtain ⟨hcut, hsynth⟩ := hwhole hunanimous
      obtain ⟨hunknown, htwo, hlabs, ⟨v, hv⟩, -⟩ := hunanimous
      have hsame : panel.ok = panel.results := List.filter_eq_self.mpr fun x hx => (hv x hx).1
      have hrequested : panel.ok.length = panel.requested := by
        rw [hsame, Panel.requested, hunknown, List.length_nil, Nat.add_zero]
      refine ⟨hdegraded.mpr ⟨hrequested.ge, ?_⟩, ?_, hrequested ▸ hsame ▸ htwo, hunknown, ⟨v, hv⟩, ?_⟩
      · rw [hsame]
        exact cutOffModels_eq_nil.mpr ⟨hcut, hsynth⟩
      · rw [henvelope, councilEnvelope, hrequested]
      · rw [henvelope, councilEnvelope, hsame]
        exact hlabs
    · rw [henvelope] at hsafe
      obtain ⟨hagreement, hmaterial, hsynthesized, hfull, hcut⟩ := nextAction_safe hsafe
      have hlabel : p.synthesizer ≠ none := by simpa [Option.isSome_iff_ne_none] using hsynthesized
      refine ⟨?_, hdegraded.mpr ⟨hfull, hcut⟩, ⟨hlabel, hmade hlabel⟩, hmaterial⟩
      cases hrating : p.consensus <;> simp_all

/-- The signals of a council agree exactly where a unanimous panel was not cut off. -/
theorem trust_signals_agree {panel : Panel} {synthKey : Str} {run : Str → Result} {p : Payload}
    (h : council site panel synthKey run = .ok (.answered p)) :
    TrustAgrees panel (ladder site run synthKey).result p ↔
      (Unanimous site panel → Whole panel (ladder site run synthKey).result) := by
  rw [council] at h
  cases hok : panel.ok with
  | nil =>
    rw [hok] at h
    dsimp only at h
    split at h <;> cases h
  | cons r rest =>
    rw [hok] at h
    cases rest with
    | nil =>
      obtain ⟨q, hq, hp⟩ := map_eq_ok.mp h
      cases hp
      exact lone_trust site hok hq
    | cons r' rest =>
      obtain ⟨q, hq, hp⟩ := map_eq_ok.mp h
      cases hp
      exact merged_trust site hok hq

end

/-- The rating of an outcome, and whether it is degraded. -/
def ratingOf : Except JsonText.LoadError Outcome → Option (Consensus × Bool)
  | .ok (.answered p) => some (p.consensus, p.envelope.degraded)
  | _ => none

theorem answered_of_rating {x : Except JsonText.LoadError Outcome} {c : Consensus × Bool}
    (h : ratingOf x = some c) : ∃ p, x = .ok (.answered p) ∧ (p.consensus, p.envelope.degraded) = c := by
  match x, h with
  | .ok (.answered p), h => exact ⟨p, rfl, Option.some.inj h⟩

/-- An installation that knows its models by their keys. -/
def plainSite : Site := ⟨fun s => s.map lowerAscii, id, fun _ => false, fun _ => true⟩

/-- An answer that recommends the change with high confidence. -/
def applying (key : Str) : OracleResult where
  status := .ok
  kind := []
  text := txt "yes\n```json-sidecar\n\x7b\"recommendation\": \"apply\", \"confidence\": \"high\"\x7d\n```"
  thinking := []
  model := key
  key := key

def applyingPanel : Panel :=
  ⟨[applying (txt "fable"), applying (txt "minimax")], [], [], by simp⟩

/-- A synthesis, whole or cut off. -/
def synthesis (cut : Bool) (key : Str) : Result :=
  ⟨.ok, if cut then txt "truncated" else [], txt "do it", [], key⟩

theorem trust_signals_agree_whole :
    let _ : Host := Host.ascii
    ∃ p, council plainSite applyingPanel SYNTHESIZER (synthesis false) = .ok (.answered p) ∧
      (TrustAgrees applyingPanel (ladder plainSite (synthesis false) SYNTHESIZER).result p ↔
        (Unanimous plainSite applyingPanel →
          Whole applyingPanel (ladder plainSite (synthesis false) SYNTHESIZER).result)) := by
  intro host
  have hrating : ratingOf (council plainSite applyingPanel SYNTHESIZER (synthesis false)) =
      some (.strong, false) := by decide +kernel
  obtain ⟨p, hp, -⟩ := answered_of_rating hrating
  exact ⟨p, hp, trust_signals_agree plainSite hp⟩

/-- A synthesis that was cut off leaves the rating strong and the envelope degraded. -/
theorem cut_synthesis_rated_strong :
    ¬∀ (_ : Host) (site : Site) (panel : Panel) (synthKey : Str) (run : Str → Result) (p : Payload),
      council site panel synthKey run = .ok (.answered p) →
        TrustAgrees panel (ladder site run synthKey).result p := by
  intro h
  let host : Host := Host.ascii
  have hrating : ratingOf (council plainSite applyingPanel SYNTHESIZER (synthesis true)) =
      some (.strong, true) := by decide +kernel
  obtain ⟨p, hp, hstrong⟩ := answered_of_rating hrating
  obtain ⟨hconsensus, hdegraded⟩ := Prod.mk.inj hstrong
  have hwhole := (h host plainSite applyingPanel SYNTHESIZER (synthesis true) p hp).strong hconsensus
  rw [hdegraded] at hwhole
  exact absurd hwhole.1 (by simp)

end AskFable.Council

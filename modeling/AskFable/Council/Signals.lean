import AskFable.Debate.Run
import Mathlib.Data.List.Dedup

/-!
# The trust signals of a council

The labs behind a panel, the agreement of its recommendations, and the envelope that tells
the caller whether the merged answer can be acted on.
-/
namespace AskFable.Council
open AskFable.Text AskFable.Python AskFable.Debate

/-- `OracleResult`: of one seat, with the key it was asked under. -/
structure OracleResult extends Result where
  key : Str

def OracleResult.isOk (r : OracleResult) : Bool := r.status = .ok

/-- `is_partial`: an answer cut off at the output cap. -/
def isCutOff (r : Result) : Bool := r.kind = txt "truncated"

/-- What of the installation a council reads: `str.lower`, and the labels, the denylist and
the reachability of the models. -/
structure Site where
  lower : Str → Str
  label : Str → Str
  disabled : Str → Bool
  available : Str → Bool

/-- The model an `ollama:`, `lmstudio:` … token carries. -/
def carried (key marker : Str) : Option Str :=
  if marker <+: key then some (strip (key.drop marker.length)) |>.filter (· ≠ []) else none

/-- `_LAB`. -/
def LAB : List (Str × Str) :=
  [(txt "fable", txt "anthropic"), (txt "fable51", txt "anthropic"), (txt "opus", txt "anthropic"),
    (txt "opus55", txt "anthropic"), (txt "opus5", txt "anthropic"),
    (txt "opus48", txt "anthropic"), (txt "sonnet", txt "anthropic"),
    (txt "minimax", txt "minimax"), (txt "deepseek", txt "deepseek"), (txt "glm", txt "zhipu"),
    (txt "gemini", txt "google"), (txt "codex", txt "openai"), (txt "grok", txt "xai"),
    (txt "kimi", txt "moonshot")]

/-- `_LAB_SUBSTRINGS`. -/
def LAB_SUBSTRINGS : List (Str × Str) :=
  [(txt "claude", txt "anthropic"), (txt "fable", txt "anthropic"), (txt "opus", txt "anthropic"),
    (txt "sonnet", txt "anthropic"), (txt "haiku", txt "anthropic"), (txt "gpt", txt "openai"),
    (txt "codex", txt "openai"), (txt "o1-", txt "openai"), (txt "o3-", txt "openai"),
    (txt "gemini", txt "google"), (txt "gemma", txt "google"), (txt "deepseek", txt "deepseek"),
    (txt "glm", txt "zhipu"), (txt "grok", txt "xai"), (txt "kimi", txt "moonshot"),
    (txt "moonshot", txt "moonshot"), (txt "qwen", txt "alibaba"), (txt "minimax", txt "minimax"),
    (txt "llama", txt "meta"), (txt "mistral", txt "mistral"), (txt "nemotron", txt "nvidia")]

/-- The markers of the gateway tokens, in the order they are tried. -/
def GATEWAYS : List Str :=
  [txt "ollama:", txt "lmstudio:", txt "atlas:", txt "openrouter:", txt "ali:"]

section
variable (site : Site)

/-- `lab_of`. -/
def labOf (key : Str) : Str :=
  match LAB.lookup key with
  | some lab => lab
  | none =>
    let mid := site.lower ((GATEWAYS.findSome? (carried key)).getD key)
    match LAB_SUBSTRINGS.find? fun needle => contains mid needle.1 with
    | some (_, lab) => lab
    | none => key

/-- `distinct_labs`. -/
def distinctLabs (keys : List Str) : ℕ := (keys.map (labOf site)).dedup.length

inductive Consensus
  | strong
  | divergent
  | partialAgreement
  | unknown
  deriving DecidableEq

def ACT_RECS : List Str := [txt "apply"]

def BLOCK_RECS : List Str := [txt "reject", txt "investigate"]

/-- `present`: the confidences that were given. -/
def present (confs : List (Option Str)) : List Str := confs.filterMap fun c => c.filter (· ≠ [])

/-- Every one of the `n` voters hedged low. -/
def hedged (n : ℕ) (confs : List (Option Str)) : Bool :=
  !(present confs).isEmpty && (present confs).length = n && (present confs).all (· = txt "low")

/-- `_consensus`: the agreement, and whether the panel disagrees materially. -/
def consensus (recs : List Str) (panelSize : Option ℕ) (confs : List (Option Str))
    (requested : Option ℕ) : Consensus × Bool :=
  let panelSize := panelSize.getD recs.length
  let requested := requested.getD panelSize
  if recs.any ACT_RECS.contains && recs.any BLOCK_RECS.contains then (.divergent, true)
  else if recs.length < 2 then
    (if 2 ≤ panelSize ∧ recs ≠ [] then .partialAgreement else .unknown, false)
  else if recs.dedup.length = 1 ∧ recs.length = requested then
    (if hedged recs.length confs then .partialAgreement else .strong, false)
  else (.partialAgreement, false)

/-- `_vote_vector`. -/
def voteVector (recs : List Str) (panelSize : ℕ) : List (Str × ℕ) :=
  (Debate.dedup recs).map (fun r => (r, recs.count r)) ++
    if recs.length < panelSize then [(txt "no_sidecar", panelSize - recs.length)] else []

inductive Confidence
  | high
  | medium
  | low
  deriving DecidableEq

/-- One rung down the ladder. -/
def Confidence.down : Confidence → Confidence
  | .high => .medium
  | _ => .low

inductive NextAction
  | singleModel
  | disagreed
  | cutShort (n : ℕ) (models : List Str)
  | oneLab (n : ℕ)
  | unsynthesized
  | missing (n requested : ℕ)
  | onlyPartial
  | provisional
  | safeToAct
  deriving DecidableEq

def NextAction.text : NextAction → Str
  | .singleModel => txt ("only one oracle answered — treat this as a single-model opinion; " ++
      "re-run or widen `models` if the decision is high-stakes")
  | .disagreed => txt ("panelists materially disagreed (apply vs reject/investigate) — " ++
      "do not treat this as consensus; read sources or escalate to ask_debate")
  | .cutShort n models => natStr models.length ++ txt " of " ++ natStr n ++ txt " answers (" ++
      (txt ", ").intercalate models ++ txt (") were cut off at the " ++
      "output cap — the merged answer rests on partial input; re-run with a " ++
      "higher token cap or a narrower question before relying on it")
  | .oneLab n => txt "all " ++ natStr n ++
      txt (" answers came from one lab (shared training lineage) — their " ++
      "agreement is not independent; widen `models` across labs before treating " ++
      "this as consensus")
  | .unsynthesized =>
      txt ("synthesis failed, so the answer is one panelist's raw reply, not a merged " ++
      "verdict — read the other sources before acting on it")
  | .missing n requested => txt "only " ++ natStr n ++ txt " of " ++ natStr requested ++
      txt " models answered — weigh the missing ones before relying on this as consensus"
  | .onlyPartial => txt ("panel agreement is only partial (mixed recommendations, incomplete " ++
      "sidecar coverage, or low confidence) — weigh sources before acting")
  | .provisional =>
      txt ("consensus signal is unknown — treat as provisional; inspect sources before acting")
  | .safeToAct => txt ("full quorum answered and was synthesized — safe to act on if it " ++
      "matches your own reasoning")

structure Envelope where
  effectiveModels : List Str
  /-- How many answered, of how many requested. -/
  quorum : ℕ × ℕ
  independentLabs : ℕ
  degraded : Bool
  cutOff : List Str
  confidence : Confidence
  recommendedNextAction : NextAction

/-- `confidence`, as the envelope rates it. -/
def envelopeConfidence (n labs : ℕ) (synthesized : Bool) (cutOff : List Str) : Confidence :=
  let rated : Confidence := if 3 ≤ n then .high else if n = 2 then .medium else .low
  let rated := if 2 ≤ n ∧ synthesized = false then .low else rated
  let rated := if 2 ≤ n ∧ labs < 2 ∧ rated = .high then .medium else rated
  if cutOff ≠ [] then rated.down else rated

/-- `nxt`. -/
def nextAction (n requested labs : ℕ) (synthesized : Bool) (agreement : Option Consensus)
    (material : Bool) (cutOff : List Str) : NextAction :=
  if n ≤ 1 then .singleModel
  else if material ∨ agreement = some .divergent then .disagreed
  else if cutOff ≠ [] then .cutShort n cutOff
  else if labs < 2 then .oneLab n
  else if synthesized = false then .unsynthesized
  else if n < requested ∨ cutOff ≠ [] then .missing n requested
  else if agreement = some .partialAgreement then .onlyPartial
  else if agreement = some .unknown then .provisional
  else .safeToAct

/-- `_council_envelope`. -/
def councilEnvelope (ok : List OracleResult) (requested : ℕ) (synthesizer : Option Str)
    (agreement : Option Consensus) (material : Bool) (cutOff : List Str) : Envelope :=
  let labs := distinctLabs site (ok.map (·.key))
  { effectiveModels := ok.map (·.model)
    quorum := (ok.length, requested)
    independentLabs := labs
    degraded := ok.length < requested ∨ cutOff ≠ []
    cutOff := cutOff
    confidence := envelopeConfidence ok.length labs synthesizer.isSome cutOff
    recommendedNextAction :=
      nextAction ok.length requested labs synthesizer.isSome agreement material cutOff }

end

theorem dedup_length_eq_one {recs : List Str} :
    recs.dedup.length = 1 ↔ recs ≠ [] ∧ ∃ r, ∀ x ∈ recs, x = r := by
  constructor
  · intro h
    obtain ⟨r, hr⟩ := List.length_eq_one_iff.mp h
    refine ⟨fun hnil => by simp [hnil] at h, r, fun x hx => ?_⟩
    have hmem := List.mem_dedup.mpr hx
    rw [hr] at hmem
    exact List.mem_singleton.mp hmem
  · rintro ⟨hne, r, hr⟩
    have hsub : ∀ x ∈ recs.dedup, x = r := fun x hx => hr x (List.mem_dedup.mp hx)
    have hrep : recs.dedup = List.replicate recs.dedup.length r :=
      List.eq_replicate_of_mem hsub
    have hle : recs.dedup.length ≤ 1 := by
      have hnodup := List.nodup_dedup recs
      rw [hrep] at hnodup
      exact List.nodup_replicate.mp hnodup
    have hpos : 0 < recs.dedup.length := by
      refine List.length_pos_iff.mpr fun hnil => hne ?_
      exact List.dedup_eq_nil recs |>.mp hnil
    omega

/-- No vote is both for the change and against it. -/
theorem not_material_of_forall_eq {recs : List Str} {r : Str} (h : ∀ x ∈ recs, x = r) :
    (recs.any ACT_RECS.contains && recs.any BLOCK_RECS.contains) = false := by
  by_contra hboth
  simp only [Bool.not_eq_false, Bool.and_eq_true, List.any_eq_true, List.contains_iff_mem] at hboth
  obtain ⟨⟨x, hx, hact⟩, y, hy, hblock⟩ := hboth
  rw [h x hx] at hact
  rw [h y hy, List.mem_singleton.mp hact] at hblock
  exact absurd hblock (by decide +kernel)

/-- A panel is rated strong when it is large enough, all that was requested voted the same,
and not every vote hedged. -/
theorem consensus_strong_iff {recs : List Str} {panelSize requested : ℕ}
    {confs : List (Option Str)} :
    (consensus recs (some panelSize) confs (some requested)).1 = .strong ↔
      2 ≤ recs.length ∧ recs.length = requested ∧ (∃ r, ∀ x ∈ recs, x = r) ∧
        hedged recs.length confs = false := by
  rw [consensus]
  dsimp only [Option.getD_some]
  constructor
  · intro h
    split_ifs at h with hmaterial hthin hpanel hunanimous hlow
    obtain ⟨-, hsame⟩ := dedup_length_eq_one.mp hunanimous.1
    exact ⟨by omega, hunanimous.2, hsame, by simpa using hlow⟩
  · rintro ⟨hsize, hfull, ⟨r, hr⟩, hlow⟩
    have hne : recs ≠ [] := fun hnil => by simp [hnil] at hsize
    have hone : recs.dedup.length = 1 := dedup_length_eq_one.mpr ⟨hne, r, hr⟩
    rw [not_material_of_forall_eq hr, if_neg (by simp), if_neg (by omega), if_pos ⟨hone, hfull⟩,
      hlow]
    simp

/-- Only a full, synthesized panel of two labs, uncut and not opposed, is called safe. -/
theorem nextAction_safe {n requested labs : ℕ} {synthesized material : Bool}
    {agreement : Option Consensus} {cutOff : List Str}
    (h : nextAction n requested labs synthesized agreement material cutOff = .safeToAct) :
    agreement ∉ [some .divergent, some .partialAgreement, some .unknown] ∧ material = false ∧
      synthesized = true ∧ requested ≤ n ∧ cutOff = [] := by
  rw [nextAction] at h
  split_ifs at h with hone hdisagree hcut hlabs hsynth hmissing hpartial hunknown
  simp only [not_or, not_lt, Bool.not_eq_true, Bool.not_eq_false, not_not] at *
  exact ⟨by simp [hdisagree.2, hpartial, hunknown], hdisagree.1, hsynth, hmissing.1, hcut⟩

end AskFable.Council

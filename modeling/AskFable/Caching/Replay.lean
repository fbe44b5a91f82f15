import AskFable.Caching.Answers
import AskFable.Caching.Puts
import AskFable.Debate.Settled

/-!
# What a cache hit replays

Calls of the four tools that share the answer cache, one after the other. A hit replays what an
earlier call of the same key put, so what holds of every put holds of every hit.
-/
namespace AskFable.Caching
open AskFable.Text AskFable.Python AskFable.Debate

/-- A call with all that becomes of its models. -/
inductive Call
  | council (site : Council.Site) (panel : Council.Panel) (synthKey : Str) (run : Str → Result)
  | chain (s : Chain.Setup) (replies : List Result) (rescue : Result)
  | debate (s : Debate.Setup) (replies : List Reply)
  | model (cacheResult : Bool) (name : Str) (res : Result) (extras : Dict)

/-- A payload whose status is ok. -/
inductive Answer
  | council (p : Council.Payload)
  | chain (p : Chain.Payload)
  | debate (p : Debate.Payload)
  | model (p : SinglePayload)

def Answer.cached : Answer → Bool
  | .council p => p.cached
  | .chain p => p.cached
  | .debate p => p.cached
  | .model p => p.cached

/-- What the payload says of itself. -/
def Answer.degraded : Answer → Bool
  | .council p => p.envelope.degraded
  | .chain p => p.degraded
  | .debate p => p.debate.resolution.degraded
  | .model _ => false

/-- Who stood in, as the payload says it. -/
def Answer.fallback : Answer → Option Str
  | .council p => p.synthesis.bind (·.fallback)
  | .chain p => p.fallback
  | .debate _ => none
  | .model _ => none

def ofCouncil : Council.Outcome → Option Answer
  | .answered p => some (.council p)
  | _ => none

def ofChain : Chain.Outcome → Option Answer
  | .answered p => some (.chain p)
  | _ => none

def ofDebate : Debate.Outcome → Option Answer
  | .decided p => some (.debate p)
  | _ => none

def ofSingle : SingleOutcome → Option Answer
  | .answered p => some (.model p)
  | _ => none

/-- `cache.get` fails where the file cannot be read, `cache.put` where it cannot be written. -/
structure Visit where
  key : Str
  ttl : ℤ
  /-- When the key is looked up, and when the answer is there. -/
  asked : ℚ
  answered : ℚ
  readable : Bool
  writable : Bool
  call : Call

inductive Event
  | visit (v : Visit)
  /-- A sweep, or the loss of the file: these rows remain. -/
  | sweep (keep : Row Answer → Bool)

section
variable [Host]

/-- What the call answers where the cache has nothing. -/
def Call.answer : Call → Except JsonText.LoadError (Option Answer)
  | .council site panel synthKey run =>
    (Council.council site panel synthKey run).map ofCouncil
  | .chain s replies rescue => (Chain.chain s replies rescue).map ofChain
  | .debate s replies => .ok (ofDebate (Debate.debate s replies))
  | .model cacheResult name res extras => (single cacheResult name res extras).map ofSingle

/-- The answer is that of the one whose role it was to decide. -/
def Call.Decides : Call → Answer → Prop
  | .council site panel synthKey run, .council p => SynthesizerDecides site panel synthKey run p
  | .chain s replies _, .chain p => LastStageDecides s replies p
  | .debate _ replies, .debate p => TurnDecides replies p
  | .model _ _ res _, .model p => ModelDecides res p
  | _, _ => False

/-- The answer of the call is put in the cache. -/
def Call.Puts (c : Call) (a : Answer) : Prop := c.answer = .ok (some a) ∧ a.cached = true

/-- What the lookup of the visit finds. -/
def Visit.lookup (v : Visit) (rows : List (Row Answer)) : List (Row Answer) × Option (Answer × ℕ) :=
  if v.readable = true then get v.ttl v.asked v.key rows else (rows, none)

/-- The rows after an event; a call that fails on the way puts nothing. -/
def Event.step (rows : List (Row Answer)) : Event → List (Row Answer)
  | .sweep keep => rows.filter keep
  | .visit v =>
    match v.lookup rows, v.call.answer with
    | (rows', none), .ok (some a) =>
      if a.cached = true ∧ v.writable = true then put v.key a v.answered rows' else rows'
    | (rows', _), _ => rows'

def runEvents (events : List Event) : List (Row Answer) := events.foldl Event.step []

/-- The call of every row was made under the key of the row. -/
def Sourced (events : List Event) (rows : List (Row Answer)) : Prop :=
  ∀ row ∈ rows, ∃ v, Event.visit v ∈ events ∧ v.key = row.key ∧ v.call.Puts row.payload

theorem Call.decides_of_puts {c : Call} {a : Answer} (h : c.Puts a) : c.Decides a := by
  obtain ⟨hanswer, hcached⟩ := h
  cases c with
  | council site panel synthKey run =>
    rw [Call.answer] at hanswer
    obtain ⟨out, hout, hp⟩ := Fallible.map_eq_ok.mp hanswer
    cases out <;> cases hp
    exact council_cached hout hcached
  | chain s replies rescue =>
    rw [Call.answer] at hanswer
    obtain ⟨out, hout, hp⟩ := Fallible.map_eq_ok.mp hanswer
    cases out <;> cases hp
    exact chain_cached hout hcached
  | debate s replies =>
    have hp := Except.ok.inj hanswer
    cases hout : Debate.debate s replies <;> rw [hout] at hp <;> cases hp
    exact debate_cached hout hcached
  | model cacheResult name res extras =>
    rw [Call.answer] at hanswer
    obtain ⟨out, hout, hp⟩ := Fallible.map_eq_ok.mp hanswer
    cases out <;> cases hp
    exact single_cached hout hcached

theorem Sourced.mono {events events' : List Event} {rows : List (Row Answer)}
    (h : Sourced events rows) (hsub : events ⊆ events') : Sourced events' rows := fun row hrow =>
  let ⟨v, hv, hkey, hputs⟩ := h row hrow
  ⟨v, hsub hv, hkey, hputs⟩

theorem Sourced.subset {events : List Event} {rows rows' : List (Row Answer)}
    (h : Sourced events rows) (hsub : rows' ⊆ rows) : Sourced events rows' :=
  fun row hrow => h row (hsub hrow)

omit [Host] in
theorem lookup_sublist (v : Visit) (rows : List (Row Answer)) :
    (v.lookup rows).1.Sublist rows := by
  unfold Visit.lookup
  split_ifs
  · exact get_sublist v.ttl v.asked v.key rows
  · exact .refl _

theorem sourced_step {events : List Event} {rows : List (Row Answer)} (h : Sourced events rows)
    (e : Event) : Sourced (events ++ [e]) (e.step rows) := by
  have hold := h.mono (List.subset_append_left events [e])
  cases e with
  | sweep keep => exact hold.subset (List.filter_subset_self _)
  | visit v =>
    have hfound := hold.subset (lookup_sublist v rows).subset
    rw [Event.step]
    split
    next rows' a hlookup hanswer =>
      rw [hlookup] at hfound
      split_ifs with hput
      · intro row hrow
        obtain hrow | rfl := mem_put hrow
        · exact hfound row hrow
        · exact ⟨v, by simp, rfl, hanswer, hput.1⟩
      · exact hfound
    next rows' out hlookup _ =>
      rw [hlookup] at hfound
      exact hfound

theorem sourced_run (events : List Event) : Sourced events (runEvents events) := by
  induction events using List.reverseRecOn with
  | nil => exact fun row hrow => nomatch hrow
  | append_singleton events e ih =>
    rw [runEvents, List.foldl_append]
    exact sourced_step ih e

/-- What is put is the answer of the one who decides, and what is served was put. -/
theorem only_decided_replayed :
    (∀ (c : Call) (a : Answer), c.Puts a → c.Decides a) ∧
      ∀ (events : List Event) (v : Visit) (served : Answer × ℕ),
        (v.lookup (runEvents events)).2 = some served →
          ∃ w, Event.visit w ∈ events ∧ w.key = v.key ∧ w.call.Puts served.1 ∧
            w.call.Decides served.1 := by
  refine ⟨fun c a h => c.decides_of_puts h, fun events v served h => ?_⟩
  unfold Visit.lookup at h
  split_ifs at h
  obtain ⟨row, hrow, hkey, hpayload⟩ := mem_of_get h
  obtain ⟨w, hw, hwkey, hputs⟩ := sourced_run events row hrow
  rw [hpayload] at hputs
  exact ⟨w, hw, hwkey.trans hkey, hputs, w.call.decides_of_puts hputs⟩

/-- What the call puts. -/
def Call.stored (c : Call) : Option Answer :=
  match c.answer with
  | .ok (some a) => if a.cached = true then some a else none
  | _ => none

theorem Call.puts_of_stored {c : Call} (h : c.stored.isSome = true) : ∃ a, c.Puts a := by
  unfold Call.stored at h
  split at h
  next a hanswer =>
    split_ifs at h with hcached
    · exact ⟨a, hanswer, hcached⟩
    · nomatch h
  · nomatch h

end

/-- A call whose answer is there at once. -/
def promptly (call : Call) : Visit := ⟨txt "k", 3600, 0, 0, true, true, call⟩

/-- A council, a chain, a debate and a single model, none of which fails. -/
def sampleCalls : List Call :=
  [.council Council.plainSite Council.applyingPanel Council.SYNTHESIZER (Council.synthesis false),
    .chain ⟨[txt "m3", txt "glm"], [], txt "900", id, false, txt "Fable"⟩
      [Council.synthesis false (txt "m3"), Council.synthesis false (txt "glm")]
      (Council.synthesis false (txt "fable")),
    .debate ⟨txt "fable", txt "minimax", 1, txt "600"⟩ Debate.silentDebate,
    .model true (txt "glm") (Council.synthesis false (txt "glm")) []]

theorem sample_decided_replayed :
    let _ : Host := Host.ascii
    (∀ c ∈ sampleCalls, ∃ a, c.Puts a ∧ c.Decides a) ∧
      ∀ c ∈ sampleCalls, ∃ served : Answer × ℕ,
        ((promptly c).lookup (runEvents [.visit (promptly c)])).2 = some served ∧
          ∃ w, Event.visit w ∈ [Event.visit (promptly c)] ∧ w.key = txt "k" ∧
            w.call.Puts served.1 ∧ w.call.Decides served.1 := by
  intro host
  have hstored : ∀ c ∈ sampleCalls, c.stored.isSome = true := by decide +kernel
  have hserved : ∀ c ∈ sampleCalls,
      ((promptly c).lookup (runEvents [.visit (promptly c)])).2.isSome = true := by decide +kernel
  refine ⟨fun c hc => ?_, fun c hc => ?_⟩
  · obtain ⟨a, ha⟩ := Call.puts_of_stored (hstored c hc)
    exact ⟨a, ha, only_decided_replayed.1 c a ha⟩
  · obtain ⟨served, hlookup⟩ := Option.isSome_iff_exists.mp (hserved c hc)
    exact ⟨served, hlookup, only_decided_replayed.2 _ _ served hlookup⟩

/-- A panelist that could not be reached. -/
def unreached (key : Str) : Council.OracleResult where
  status := .error
  kind := txt "network"
  text := txt "no route"
  thinking := []
  model := key
  key := key

/-- A council of three that lost a panelist and the synthesizer it asked for. -/
def battered : Call :=
  .council Council.plainSite
    ⟨[Council.applying (txt "fable"), Council.applying (txt "minimax"), unreached (txt "glm")],
      [], [], by simp⟩
    (txt "glm")
    fun key => if key = txt "glm" then (unreached key).toResult else Council.synthesis false key

/-- Its answer is cached, and a hit replays it for what it is: degraded, from a stand-in. -/
theorem degraded_council_replayed :
    (¬∀ (_ : Host) (events : List Event) (v : Visit) (served : Answer × ℕ),
        (v.lookup (runEvents events)).2 = some served → served.1.degraded = false) ∧
      ¬∀ (_ : Host) (events : List Event) (v : Visit) (served : Answer × ℕ),
        (v.lookup (runEvents events)).2 = some served → served.1.fallback = none := by
  let host : Host := Host.ascii
  have hserved : ((promptly battered).lookup (runEvents [.visit (promptly battered)])).2.map
      (fun served => (served.1.degraded, served.1.fallback)) = some (true, some (txt "fable")) := by
    decide +kernel
  obtain ⟨served, hlookup, hgaps⟩ := Option.map_eq_some_iff.mp hserved
  obtain ⟨hdegraded, hfallback⟩ := Prod.mk.inj hgaps
  refine ⟨fun h => ?_, fun h => ?_⟩
  · have hwhole := h host _ _ served hlookup
    rw [hdegraded] at hwhole
    nomatch hwhole
  · have hnone := h host _ _ served hlookup
    rw [hfallback] at hnone
    nomatch hnone

end AskFable.Caching

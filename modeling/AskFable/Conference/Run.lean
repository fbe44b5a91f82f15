import AskFable.Conference.Transcript
import AskFable.Debate.Run
import AskFable.General.Cut
import AskFable.General.Roster
import Mathlib.Data.List.Dedup
import Mathlib.Data.List.Sort

/-!
# A conference

`run_conference`: the blind round, the attack on what the openings share, the open rounds and
the map. What a model answers depends on where in the run it is asked, and on the prompt; a
task of the blind round that raises is an answer of status error.
-/
namespace AskFable.Conference
open AskFable.Text AskFable.Python AskFable.Debate AskFable.Cut AskFable.Roster

/-! ### Prompts -/

def blindPrompt (seed : Str) : Str :=
  txt "You are opening a brainstorming conference on the topic below. No one has " ++
    txt "spoken yet — give YOUR own take, cold: the ideas, angles, and positions you " ++
    txt "think matter most, and stake out a clear stance. Be specific and concrete; do " ++
    txt "not hedge toward a safe middle.\n\n" ++ seed ++ txt "\n\nYour opening position:"

def turnPrompt (transcript : Str) : Str :=
  txt "You are a participant in a brainstorming conference with other AI models, " ++
    txt "arguing a topic together. Read the discussion so far, then add ONE " ++
    txt "contribution: a new idea, a concrete build on someone else's point, or a " ++
    txt "sharp disagreement where you genuinely disagree. Do not merely agree, and do " ++
    txt "not summarise — push the thinking somewhere it hasn't been. Be brief and " ++
    txt "specific.\n\nDISCUSSION SO FAR:\n" ++ transcript ++ txt "\n\nYour contribution:"

def finalTurnPrompt (transcript : Str) : Str :=
  txt "You are a participant in a brainstorming conference with other AI models, " ++
    txt "arguing a topic together. This is the LAST round — a rapporteur will map the " ++
    txt "disagreement after it. Read the discussion so far, then land your position: " ++
    txt "state the ONE stance you hold and why, concede anything you now think was " ++
    txt "wrong, and finish with a single sentence naming the specific fact or test " ++
    txt "that would change your mind. Be brief and specific.\n\n" ++
    txt "DISCUSSION SO FAR:\n" ++ transcript ++ txt "\n\nYour closing position:"

def premisePrompt (openings : Str) : Str :=
  txt "Below are independent opening positions on one topic, written without seeing " ++
    txt "each other. Find the single most load-bearing claim that at least all but one " ++
    txt "of them ASSERT OR ASSUME — the shared premise the discussion is resting on, " ++
    txt "not a topic label. Reply with EXACTLY two lines and nothing else:\n" ++
    txt "CLAIM: <the shared premise, one sentence, stated as a claim that could be false>\n" ++
    txt "ASSERTED_BY: <comma-separated participant labels that assert or assume it>\n\n" ++
    txt "OPENING POSITIONS:\n" ++ openings ++ txt "\n\nYour two lines:"

def attackPrompt (claim seed : Str) : Str :=
  txt "You are a participant in a brainstorming conference. Everyone's opening " ++
    txt "position rests on this shared premise:\n\n  " ++ claim ++ txt "\n\n" ++
    txt "Your job is the one nobody else will do: make the STRONGEST case that this " ++
    txt "premise is FALSE. Not a caveat, not 'it depends' — the real argument against " ++
    txt "it, and what follows for the topic if it does not hold. If after genuinely " ++
    txt "trying you believe the premise holds, say so plainly and give the best " ++
    txt "argument you could find anyway. Finish with one line:\n" ++
    txt "DISTINGUISHING TEST: <one observation whose result differs depending on " ++
    txt "whether the premise holds>\n\n" ++ seed ++ txt "\n\nYour case against the premise:"

def rapporteurPrompt (transcript : Str) : Str :=
  txt "You are the rapporteur for the brainstorming conference below. Produce a MAP " ++
    txt "OF THE DISAGREEMENT — not a summary, not a tidy consensus. Structure it:\n" ++
    txt "CONVERGED — what the participants genuinely agreed on.\n" ++
    txt "THE CRUX — the one disagreement they could not resolve, and WHY it held.\n" ++
    txt "WHAT WOULD CHANGE IT — the specific fact or test that would settle it.\n" ++
    txt "Name positions concretely — by participant label AND by the claim itself, " ++
    txt "quoting it. If they never really disagreed, say so.\n\n" ++
    txt "TRANSCRIPT:\n" ++ transcript ++ txt "\n\nMap:"

/-! ### The premise reply -/

/-- What stands behind the colon; only a colon is a colon in upper case. -/
def afterColon (s : Str) : Str := (afterFirst (txt ":") s).getD []

section
variable [Host]

/-- The loop body of `_parse_premise`: the claim, and who asserts it. -/
def premiseLine (acc : Str × List Str) (line : Str) : Str × List Str :=
  let (claim, asserted) := acc
  let stripped := strip line
  if claim = [] ∧ (txt "CLAIM:").isPrefixOf (Host.upper stripped) = true then
    (strip (afterColon stripped), asserted)
  else if (txt "ASSERTED_BY:").isPrefixOf (Host.upper stripped) = true then
    (claim, (((afterColon stripped).splitOn (cp ',')).map strip).filter (· ≠ []))
  else (claim, asserted)

/-- `_parse_premise`. -/
def parsePremise (text : Str) : Str × List Str := (splitlines text).foldl premiseLine ([], [])

end

/-! ### Participants without their names -/

/-- The separator in the header of a line. -/
def SEP : Str := txt " · "

def pseudonym (i : ℕ) : Str := txt "Participant " ++ natStr (i + 1)

/-- The seats that spoke, the rapporteur's own last. -/
def ordered (speakers : List Str) (rapporteur : Str) : List Str := setLast rapporteur speakers

/-- `alias`; no seat is twice among the speakers. -/
def aliases (speakers : List Str) (rapporteur : Str) : List (Str × Str) :=
  roster pseudonym (ordered speakers rapporteur)

/-- `legend`. -/
def legendOf (label : Str → Str) (speakers : List Str) (rapporteur : Str) : List (Str × Str) :=
  legend label (aliases speakers rapporteur)

/-- One line of the anonymised copy, by the seat that wrote it. -/
def masked (pseudo : Option Str) (line : Str) : Str :=
  match pseudo with
  | some p =>
    if (txt "[").isPrefixOf line = true then
      match afterFirst SEP line with
      | some rest => txt "[" ++ p ++ SEP ++ rest
      | none => line
    else line
  | none => line

/-- `_anonymize`. -/
def anonymize (label : Str → Str) (entries : List Str) (seeds : ℕ) (speakers : List Str)
    (rapporteur : Str) (lineKeys : List (Option Str)) : List Str × List (Str × Str) :=
  let key i := ((lineKeys[seeds + i]?).bind id).getD []
  (entries.take seeds ++ (entries.drop seeds).mapIdx fun i line =>
      masked ((aliases speakers rapporteur).lookup (key i)) line,
    legendOf label speakers rapporteur)

/-! ### The run -/

/-- What a conference is about and who sits at it; an empty bench raises. -/
structure Setup where
  topic : Str
  context : Str
  bench : List Str
  seated : bench ≠ []
  rounds : ℕ
  synthesizer : Str
  attackPremise : Bool
  label : Str → Str

/-- Where in a run a model is asked. -/
inductive Place
  | blind (seat : ℕ)
  | premise
  | attack
  | turn (round seat : ℕ)
  | map

/-- What the seat of a key answers to a prompt. -/
abbrev Oracle := Place → Str → Str → Result

structure Post where
  model : Str
  round : ℕ
  text : Str
  role : Str
  cutOff : Bool
  deriving DecidableEq

/-- An entry of `errors`. -/
structure Failure where
  model : Str
  round : Option ℕ
  stage : Option Str
  status : Status
  kind : Str
  detail : Str
  deriving DecidableEq

structure State where
  transcript : List Str
  /-- The seat behind each entry, none for the seed. -/
  lineKeys : List (Option Str)
  posts : List Post
  speakers : List Str
  errors : List Failure

/-- The attack on a premise: the seat that makes it, and the labels of those that asserted
the premise. -/
structure Attack where
  claim : Str
  attacker : Str
  assertedReal : List Str
  deriving DecidableEq

/-- `premise`. -/
structure Premise where
  claim : Str
  attacker : Str
  assertedBy : List Str
  deriving DecidableEq

structure Outcome where
  topic : Str
  rounds : ℕ
  models : List Str
  transcript : List Str
  posts : List Post
  mapText : Str
  speakers : List Str
  errors : List Failure
  mapError : Option Failure
  mapThinking : Str
  mapLegend : List (Str × Str)
  premise : Option Premise

/-- `s or fallback`. -/
def orElse (s fallback : Str) : Str := if s = [] then fallback else s

/-- `_failure`. -/
def failure (who : Str) (result : Result) (round : Option ℕ) : Failure where
  model := who
  round := round
  stage := none
  status := result.status
  kind := if result.status = .ok then orElse result.kind (txt "empty_answer") else result.why
  detail := orElse (strip result.text) (txt "no text returned")

/-- The text of a result; one that is not ok has none. -/
def said (result : Result) : Str := if result.status = .ok then strip result.text else []

/-- The role of a turn as the header has it. -/
def tag (role : Str) : Str :=
  if role = [] then [] else SEP ++ role.map fun c => if c = cp '_' then cp ' ' else c

/-- The entry of a turn, under a name. -/
def entry (who : Str) (round : ℕ) (role text : Str) : Str :=
  txt "[" ++ who ++ SEP ++ txt "round " ++ natStr round ++ tag role ++ txt "] " ++ text

/-- The seat that argues against the premise: one that did not assert it, or the last. -/
def chooseAttacker (label : Str → Str) (speakers assertedReal : List Str) : Str :=
  let last := speakers.getLast?.getD []
  if assertedReal = [] then last
  else (speakers.find? fun k => label k ∉ assertedReal).getD last

def Attack.report (label : Str → Str) (a : Attack) : Premise :=
  ⟨a.claim, label a.attacker, a.assertedReal.insertionSort (· ≤ ·)⟩

section
variable (s : Setup)

def Setup.seed : List Str :=
  (txt "TOPIC: " ++ s.topic) ::
    if strip s.context = [] then [] else [txt "SHARED CONTEXT:\n" ++ strip s.context]

def start : State := ⟨s.seed, s.seed.map fun _ => none, [], [], []⟩

/-- `take`. -/
def take (st : State) (key : Str) (result : Result) (round : ℕ) (role : Str) : State :=
  let who := s.label key
  if said result = [] then { st with errors := st.errors ++ [failure who result (some round)] }
  else
    { transcript := st.transcript ++ [entry who round role (said result)]
      lineKeys := st.lineKeys ++ [some key]
      posts := st.posts ++ [⟨who, round, said result, role, result.kind = txt "truncated"⟩]
      speakers := enroll st.speakers key
      errors := st.errors }

variable (ask : Oracle)

def blindRound : State :=
  s.bench.zipIdx.foldl
    (fun st k => take s st k.1 (ask (.blind k.2) k.1 (blindPrompt (joined s.seed))) 1 [])
    (start s)

/-- The entry about a premise reply that names none. -/
def premiseMissing (found : Result) : Failure where
  model := s.label s.synthesizer
  round := none
  stage := some (txt "premise")
  status := found.status
  kind := txt "premise_unavailable"
  detail := orElse ((strip found.text).take 300) (txt "no CLAIM: line in the premise reply")

section
variable [Host]

/-- The reply of the premise turn, and the claim with those who assert it. -/
def premiseReply (st : State) : Result × Str × List Str :=
  let openings := (anonymize s.label st.transcript s.seed.length st.speakers s.synthesizer
    st.lineKeys).1.drop s.seed.length
  let found := ask .premise s.synthesizer (premisePrompt (joined openings))
  (found, parsePremise (if found.status = .ok then found.text else []))

/-- The attack that the premise reply leads to. -/
def attackOf (st : State) : Option Attack :=
  let (_, claim, asserted) := premiseReply s ask st
  if claim = [] then none
  else
    let names := legendOf s.label st.speakers s.synthesizer
    let assertedReal := (asserted.filterMap fun a => names.lookup a).dedup
    some ⟨claim, chooseAttacker s.label st.speakers assertedReal, assertedReal⟩

/-- Whether the premise is asked for. -/
def Setup.attacks (st : State) : Bool :=
  s.attackPremise && decide (2 ≤ s.rounds) && decide (3 ≤ st.speakers.length)

def premiseRound (st : State) : State × Option Attack :=
  if s.attacks st then
    match attackOf s ask st with
    | none =>
      ({ st with errors := st.errors ++ [premiseMissing s (premiseReply s ask st).1] }, none)
    | some a =>
      let reply := ask .attack a.attacker (attackPrompt a.claim (joined s.seed))
      (take s st a.attacker reply 1 (txt "premise_attack"), some a)
  else (st, none)

end

def openRound (blind : ℕ) (st : State) (round : ℕ) : State :=
  let offset := (round - 1) % s.bench.length
  let template := if round = s.rounds then finalTurnPrompt else turnPrompt
  (s.bench.drop offset ++ s.bench.take offset).zipIdx.foldl
    (fun st k =>
      let prompt := template (render st.transcript s.seed.length blind none)
      take s st k.1 (ask (.turn round k.2) k.1 prompt) round [])
    st

variable [Host]

/-- The state at the end of the open rounds, with `blind_entries` and the attack. -/
def discussion : State × ℕ × Option Attack :=
  let (st, attack) := premiseRound s ask (blindRound s ask)
  let blind := st.transcript.length - s.seed.length
  ((List.range' 2 (s.rounds - 1)).foldl (openRound s ask blind) st, blind, attack)

/-- The transcript as the rapporteur reads it. -/
def rapporteurCopy : Str :=
  let (st, blind, _) := discussion s ask
  render (anonymize s.label st.transcript s.seed.length st.speakers s.synthesizer st.lineKeys).1
    s.seed.length blind none

/-- The entry about a map of a trimmed transcript. -/
def mapTrimmed : Failure where
  model := s.label s.synthesizer
  round := none
  stage := some (txt "map")
  status := .ok
  kind := txt "transcript_elided"
  detail := txt "the map was written on a budget-trimmed transcript; the " ++
    txt "blind round and the most recent turns were kept in full"

/-- The outcome before there is a map. -/
def unmapped : Outcome :=
  let (st, _, attack) := discussion s ask
  { topic := s.topic
    rounds := s.rounds
    models := s.bench.map s.label
    transcript := st.transcript
    posts := st.posts
    mapText := []
    speakers := st.speakers
    errors := st.errors
    mapError := none
    mapThinking := []
    mapLegend := []
    premise := attack.map (Attack.report s.label) }

/-- `run_conference`. -/
def conference : Outcome :=
  let outcome := unmapped s ask
  if outcome.posts.length < 2 then outcome
  else
    let copy := rapporteurCopy s ask
    let trimmed := contains copy (txt "earlier turns elided")
    let synth := ask .map s.synthesizer (rapporteurPrompt copy)
    { outcome with
      mapText := said synth
      errors := if trimmed = true then outcome.errors ++ [mapTrimmed s] else outcome.errors
      mapError :=
        if said synth = [] then some (failure (s.label s.synthesizer) synth none) else none
      mapThinking := if said synth = [] then [] else synth.thinking
      mapLegend := legendOf s.label outcome.speakers s.synthesizer }

/-- A map is put beside what was said, and changes nothing of it. -/
theorem conference_frame :
    (conference s ask).transcript = (discussion s ask).1.transcript ∧
      (conference s ask).posts = (discussion s ask).1.posts ∧
      (conference s ask).speakers = (discussion s ask).1.speakers ∧
      (conference s ask).premise = (discussion s ask).2.2.map (Attack.report s.label) := by
  by_cases h : (unmapped s ask).posts.length < 2
  · rw [conference, if_pos h]
    exact ⟨rfl, rfl, rfl, rfl⟩
  · rw [conference, if_neg h]
    exact ⟨rfl, rfl, rfl, rfl⟩

end

end AskFable.Conference

import AskFable.Conference.Run

/-!
# What the seats contribute

A conference is a sequence of contributions: the turns whose answer had a text. The
transcript, the seats behind its entries, the posts and the speakers are that sequence,
written down four times. The speakers get their pseudonyms by their order.
-/
namespace AskFable.Conference
open AskFable.Text AskFable.Python AskFable.Debate AskFable.Roster

structure Contribution where
  seat : Str
  round : ℕ
  role : Str
  text : Str
  deriving DecidableEq

/-- The entry of a contribution, under the name its seat has. -/
def Contribution.line (who : Str → Str) (c : Contribution) : Str :=
  entry (who c.seat) c.round c.role c.text

/-- What a result contributes, if anything. -/
def spoken (key : Str) (result : Result) (round : ℕ) (role : Str) : List Contribution :=
  if said result = [] then [] else [⟨key, round, role, said result⟩]

/-- The contributions, from the posts and the seats behind the entries. -/
def State.contributions (st : State) : List Contribution :=
  List.zipWith (fun k p => ⟨k, p.round, p.role, p.text⟩) (st.lineKeys.filterMap id) st.posts

/-- The states a conference can reach, turn by turn, with what was contributed. -/
inductive Talk (s : Setup) : List Contribution → State → Prop
  | start : Talk s [] (start s)
  | take {cs : List Contribution} {st : State} (key : Str) (result : Result) (round : ℕ)
      (role : Str) : Talk s cs st →
      Talk s (cs ++ spoken key result round role) (take s st key result round role)
  | failure {cs : List Contribution} {st : State} (f : Failure) : Talk s cs st →
      Talk s cs { st with errors := st.errors ++ [f] }

/-- The contributions as the state has them. -/
structure Written (s : Setup) (cs : List Contribution) (st : State) : Prop where
  transcript : st.transcript = s.seed ++ cs.map (Contribution.line s.label)
  lineKeys : st.lineKeys = (s.seed.map fun _ => none) ++ cs.map fun c => some c.seat
  posts : (st.posts.map fun p => (p.round, p.role, p.text)) =
    cs.map fun c => (c.round, c.role, c.text)
  speakers : st.speakers = (cs.map Contribution.seat).foldl enroll []

variable {s : Setup} {cs : List Contribution} {st : State}

theorem written_take (h : Written s cs st) (key : Str) (result : Result) (round : ℕ)
    (role : Str) :
    Written s (cs ++ spoken key result round role) (take s st key result round role) := by
  unfold take spoken
  by_cases htext : said result = []
  · rw [if_pos htext, if_pos htext, List.append_nil]
    exact ⟨h.transcript, h.lineKeys, h.posts, h.speakers⟩
  · rw [if_neg htext, if_neg htext]
    refine ⟨?_, ?_, ?_, ?_⟩
    · simp only [h.transcript, List.map_append, List.map_singleton, List.append_assoc]
      rfl
    · simp only [h.lineKeys, List.map_append, List.map_singleton, List.append_assoc]
    · simp only [h.posts, List.map_append, List.map_singleton]
    · simp only [h.speakers, List.map_append, List.map_singleton, List.foldl_append]
      rfl

theorem written_start (s : Setup) : Written s [] (start s) :=
  ⟨(List.append_nil _).symm, (List.append_nil _).symm, rfl, rfl⟩

theorem Talk.written (h : Talk s cs st) : Written s cs st := by
  induction h with
  | start => exact written_start s
  | take key result round role _ ih => exact written_take ih key result round role
  | failure f _ ih => exact ⟨ih.transcript, ih.lineKeys, ih.posts, ih.speakers⟩

theorem Written.length_eq (h : Written s cs st) : st.transcript.length = st.lineKeys.length := by
  rw [h.transcript, h.lineKeys]
  simp

theorem Written.contributions (h : Written s cs st) : st.contributions = cs := by
  have hseed : (s.seed.map fun _ => (none : Option Str)).filterMap id = [] := by
    rw [List.filterMap_map, List.filterMap_eq_nil_iff]
    exact fun _ _ => rfl
  have hkeys : st.lineKeys.filterMap id = cs.map Contribution.seat := by
    rw [h.lineKeys, List.filterMap_append, hseed, List.filterMap_map, List.nil_append]
    exact congrFun List.filterMap_eq_map cs
  let put (k : Str) (p : ℕ × Str × Str) : Contribution := ⟨k, p.1, p.2.1, p.2.2⟩
  have hput : st.contributions = List.zipWith put (cs.map Contribution.seat)
      (st.posts.map fun p => (p.round, p.role, p.text)) := by
    rw [List.zipWith_map_right, ← hkeys]
    rfl
  rw [hput, h.posts, List.zipWith_map, List.zipWith_self]
  exact List.map_id cs

/-- The seats that spoke. -/
theorem Written.mem_speakers (h : Written s cs st) {k : Str} :
    k ∈ st.speakers ↔ ∃ c ∈ cs, c.seat = k := by
  rw [h.speakers, mem_foldl_enroll, List.mem_map]
  simp only [List.not_mem_nil, false_or]

theorem Written.nodup_speakers (h : Written s cs st) : st.speakers.Nodup := by
  rw [h.speakers]
  exact Roster.Nodup.foldl_enroll List.nodup_nil _

/-! ### Pseudonyms -/

/-- The pseudonym of a seat that spoke. -/
def participant (speakers : List Str) (rapporteur key : Str) : Str :=
  pseudonym ((ordered speakers rapporteur).idxOf key)

section
variable {speakers : List Str} {rapporteur key : Str}

theorem pseudonym_injective : Function.Injective pseudonym := by
  intro i j h
  have hnumber := natStr_injective (List.append_cancel_left h)
  omega

theorem lookup_aliases (h : key ∈ speakers) :
    (aliases speakers rapporteur).lookup key = some (participant speakers rapporteur key) :=
  lookup_roster (mem_setLast.mpr h)

/-- Each of the speakers has a pseudonym of its own, from the first number to the last. -/
theorem bijOn_participant (h : speakers.Nodup) :
    Set.BijOn (participant speakers rapporteur) {k | k ∈ speakers}
      {p | ∃ i < speakers.length, pseudonym i = p} := by
  have hset : {k | k ∈ speakers} = {k | k ∈ ordered speakers rapporteur} :=
    Set.ext fun _ => mem_setLast.symm
  rw [hset, ← length_setLast rapporteur speakers]
  exact bijOn_roster pseudonym_injective (Roster.Nodup.setLast h rapporteur)

/-- The legend leads from the pseudonym of a seat to its label. -/
theorem lookup_legendOf (h : speakers.Nodup) (label : Str → Str) {p who : Str} :
    (legendOf label speakers rapporteur).lookup p = some who ↔
      ∃ k ∈ speakers, participant speakers rapporteur k = p ∧ label k = who := by
  rw [legendOf, aliases, ordered,
    lookup_legend_iff pseudonym_injective (Roster.Nodup.setLast h rapporteur)]
  simp only [mem_setLast]
  rfl

theorem participant_rapporteur (h : speakers.Nodup) (hspoke : rapporteur ∈ speakers) :
    participant speakers rapporteur rapporteur = pseudonym (speakers.length - 1) := by
  rw [participant, ordered, idxOf_setLast h hspoke]

end

/-! ### The rounds -/

theorem round_of_spoken {key : Str} {result : Result} {round : ℕ} {role : Str} :
    ∀ c ∈ spoken key result round role, c.round = round := by
  intro c hc
  unfold spoken at hc
  split_ifs at hc
  · cases hc
  · rw [List.mem_singleton.mp hc]

/-- Turns of one round, each asked in the state the one before it left. -/
theorem Talk.turns {α : Type*} (h : Talk s cs st) (l : List α) (key : α → Str)
    (answer : State → α → Result) (round : ℕ) :
    ∃ more, Talk s (cs ++ more)
        (l.foldl (fun st a => Conference.take s st (key a) (answer st a) round []) st) ∧
      ∀ c ∈ more, c.round = round := by
  induction l generalizing cs st with
  | nil => exact ⟨[], by rwa [List.append_nil], by simp⟩
  | cons a l ih =>
    obtain ⟨more, hmore, hround⟩ := ih (h.take (key a) (answer st a) round [])
    refine ⟨spoken (key a) (answer st a) round [] ++ more, by rwa [← List.append_assoc], ?_⟩
    intro c hc
    rcases List.mem_append.mp hc with hc | hc
    · exact round_of_spoken c hc
    · exact hround c hc

variable (ask : Oracle)

variable (s) in
theorem blindRound_talk : ∃ cs, Talk s cs (blindRound s ask) ∧ ∀ c ∈ cs, c.round = 1 := by
  obtain ⟨more, hmore, hround⟩ := Talk.turns (Talk.start (s := s)) s.bench.zipIdx Prod.fst
    (fun _ k => ask (.blind k.2) k.1 (blindPrompt (joined s.seed))) 1
  exact ⟨more, hmore, hround⟩

theorem Talk.openRound (h : Talk s cs st) (blind round : ℕ) :
    ∃ more, Talk s (cs ++ more) (openRound s ask blind st round) ∧ ∀ c ∈ more, c.round = round :=
  h.turns _ Prod.fst (fun st k => ask (.turn round k.2) k.1
    ((if round = s.rounds then finalTurnPrompt else turnPrompt)
      (render st.transcript s.seed.length blind none))) round

theorem Talk.openRounds (h : Talk s cs st) (blind : ℕ) (rounds : List ℕ) :
    ∃ more, Talk s (cs ++ more) (rounds.foldl (Conference.openRound s ask blind) st) ∧
      ∀ c ∈ more, c.round ∈ rounds := by
  induction rounds generalizing cs st with
  | nil => exact ⟨[], by rwa [List.append_nil], by simp⟩
  | cons round rounds ih =>
    obtain ⟨first, hfirst, hround⟩ := h.openRound ask blind round
    obtain ⟨more, hmore, hrounds⟩ := ih hfirst
    refine ⟨first ++ more, by rwa [← List.append_assoc], fun c hc => ?_⟩
    rcases List.mem_append.mp hc with hc | hc
    · rw [hround c hc]
      exact List.mem_cons_self
    · exact List.mem_cons_of_mem _ (hrounds c hc)

variable [Host]

theorem Talk.premiseRound (h : Talk s cs st) :
    ∃ more, Talk s (cs ++ more) (premiseRound s ask st).1 ∧ ∀ c ∈ more, c.round = 1 := by
  unfold Conference.premiseRound
  split_ifs
  · cases attackOf s ask st with
    | none => exact ⟨[], by simpa using h.failure _, by simp⟩
    | some a => exact ⟨_, h.take a.attacker _ 1 (txt "premise_attack"), round_of_spoken⟩
  · exact ⟨[], by simpa using h, by simp⟩

variable (s) in
/-- A whole conference: the first round is what the transcript is never trimmed of. -/
theorem discussion_talk : ∃ opening later,
    Talk s (opening ++ later) (discussion s ask).1 ∧ opening.length = (discussion s ask).2.1 ∧
      (∀ c ∈ opening, c.round = 1) ∧ ∀ c ∈ later, c.round ≠ 1 := by
  obtain ⟨first, hfirst, hone⟩ := blindRound_talk s ask
  obtain ⟨attack, hattack, hone'⟩ := hfirst.premiseRound ask
  obtain ⟨later, hlater, hrounds⟩ := hattack.openRounds ask
    ((premiseRound s ask (blindRound s ask)).1.transcript.length - s.seed.length)
    (List.range' 2 (s.rounds - 1))
  refine ⟨first ++ attack, later, hlater, ?_, ?_, ?_⟩
  · have hlen := congrArg List.length hattack.written.transcript
    rw [List.length_append, List.length_map] at hlen
    exact (Nat.sub_eq_of_eq_add' hlen).symm
  · exact fun c hc => (List.mem_append.mp hc).elim (hone c) (hone' c)
  · intro c hc heq
    have hmem := hrounds c hc
    rw [heq, List.mem_range'_1] at hmem
    omega

end AskFable.Conference

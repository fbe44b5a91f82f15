import AskFable.Debate.Run

/-!
# When a debate may call itself settled

A debate that ends without a judge says that the opponent conceded or that the two sides
converged. Both are read off what the ledgers do not hold: no contest, no open id. What
they would have to hold instead is stated here, and for which ledgers the two agree.
-/
namespace AskFable.Debate
open AskFable.Text AskFable.Python

/-- The rows in which an opponent contests a claim or adds one. -/
def raised (l : Ledger) : List Dict := (dispositions l).filter contests ++ addedClaims l

section
variable [Host]

/-- The ledger concedes the claim in so many words. -/
def Concedes (l : Ledger) (id : Str) : Prop :=
  ∃ d ∈ dispositions l, concedes d = true ∧ named d = true ∧ rowId d = id

/-- The opponent gave in: each claim with an id is conceded, nothing is contested, nothing
added. -/
def GaveIn (propose refute : Ledger) : Prop :=
  (∀ c ∈ claims propose, named c = true → Concedes refute (rowId c)) ∧ raised refute = []

/-- What the opponent raised has a name and was closed, by the proposer's resolution of it or
by a concession in the rebuttal, and the rebuttal raised nothing more. -/
def ClosedAll (refute revise : Ledger) (rebut : Option Ledger) : Prop :=
  (∀ d ∈ raised refute, named d = true ∧
    (closed revise (rowId d) = true ∨ ∃ l ∈ rebut, Concedes l (rowId d))) ∧
  ∀ l ∈ rebut, raised l = []

/-- A debate that no judge decided is what it is called. -/
def SettledOpenly (replies : List Reply) : Outcome → Prop
  | .decided p =>
    match p.debate.resolution, replies with
    | .conceded, a :: r :: _ => GaveIn a.ledger r.ledger
    | .conceded, _ => False
    | .converged, _ :: r :: v :: rest =>
      ClosedAll r.ledger v.ledger
        (if p.turns.length = 3 then none else rest.head?.map (·.ledger))
    | .converged, _ => False
    | _, _ => True
  | _ => True

/-- The refutation disposes of each claim that has an id, one way or the other, and all that
it raises has an id. -/
def Disposes (propose refute : Ledger) : Prop :=
  (∀ c ∈ claims propose, named c = true → ∃ d ∈ dispositions refute,
    (concedes d = true ∨ contests d = true) ∧ named d = true ∧ rowId d = rowId c) ∧
  ∀ d ∈ raised refute, named d = true

/-- The rebuttal concedes all that is open, and adds nothing. -/
def GivesUp (rebut : Ledger) (openIds : List Str) : Prop :=
  (∀ id ∈ openIds, Concedes rebut id) ∧ addedClaims rebut = []

/-- No ledger on which a debate can end leaves unsaid what it ends with. -/
def Outspoken (s : Setup) : List Reply → Prop
  | a :: r :: rest =>
    a.res.status = .ok → r.res.status = .ok → r.ledger ≠ none →
      if contestedAfterRefute r.ledger = [] then Disposes a.ledger r.ledger
      else
        match rest with
        | v :: rest => v.res.status = .ok → v.ledger ≠ none →
          if openAfterRevise (contestedAfterRefute r.ledger) v.ledger = [] then
            recsMatch r v = true → ∀ d ∈ raised r.ledger, named d = true
          else
            match rest with
            | rb :: _ => 2 ≤ s.rounds → rb.res.status = .ok → rb.ledger ≠ none →
              stillContestedAfterRebut rb.ledger = [] → (∀ d ∈ raised r.ledger, named d = true) ∧
                GivesUp rb.ledger
                  (openAfterRevise (contestedAfterRefute r.ledger) v.ledger)
            | [] => True
        | [] => True
  | _ => True

omit [Host] in
theorem mem_raised {d : Dict} {l : Ledger} :
    d ∈ raised l ↔ (d ∈ dispositions l ∧ contests d = true) ∨ d ∈ addedClaims l := by
  simp [raised]

/-- What is raised with an id is contested. -/
theorem mem_contested_of_raised {d : Dict} {l : Ledger} (hd : d ∈ raised l)
    (hnamed : named d = true) : rowId d ∈ contestedAfterRefute l := by
  rw [mem_contestedAfterRefute]
  rcases mem_raised.mp hd with ⟨hmem, hcontests⟩ | hmem
  · exact Or.inl ⟨d, hmem, hcontests, hnamed, rfl⟩
  · exact Or.inr ⟨d, hmem, hnamed, rfl⟩

theorem exists_raised {id : Str} {l : Ledger} (h : id ∈ contestedAfterRefute l) :
    ∃ d ∈ raised l, named d = true ∧ rowId d = id := by
  rcases mem_contestedAfterRefute.mp h with ⟨d, hd, hcontests, hnamed, hid⟩ | ⟨a, ha, hnamed, hid⟩
  · exact ⟨d, mem_raised.mpr (Or.inl ⟨hd, hcontests⟩), hnamed, hid⟩
  · exact ⟨a, mem_raised.mpr (Or.inr ha), hnamed, hid⟩

/-- Where nothing is contested, disposing of everything is giving in. -/
theorem gaveIn_iff {propose refute : Ledger} (h : contestedAfterRefute refute = []) :
    GaveIn propose refute ↔ Disposes propose refute := by
  have hnone {d : Dict} (hd : d ∈ raised refute) : named d ≠ true := fun hnamed => by
    have hmem := mem_contested_of_raised hd hnamed
    rw [h] at hmem
    nomatch hmem
  constructor
  · rintro ⟨hconcedes, hraised⟩
    refine ⟨fun c hc hnamed => ?_, by simp [hraised]⟩
    obtain ⟨d, hd, hconcede, hid⟩ := hconcedes c hc hnamed
    exact ⟨d, hd, Or.inl hconcede, hid⟩
  · rintro ⟨hdisposes, hnamed⟩
    refine ⟨fun c hc hc' => ?_, List.eq_nil_iff_forall_not_mem.mpr fun d hd => hnone hd (hnamed d hd)⟩
    obtain ⟨d, hd, hverdict, hdnamed, hid⟩ := hdisposes c hc hc'
    refine ⟨d, hd, hverdict.resolve_right fun hcontests => ?_, hdnamed, hid⟩
    exact hnone (mem_raised.mpr (Or.inl ⟨hd, hcontests⟩)) hdnamed

/-- Where the revision left nothing open. -/
theorem closedAll_revise_iff {refute revise : Ledger}
    (h : openAfterRevise (contestedAfterRefute refute) revise = []) :
    ClosedAll refute revise none ↔ ∀ d ∈ raised refute, named d = true := by
  constructor
  · exact fun hclosed d hd => (hclosed.1 d hd).1
  · intro hnamed
    refine ⟨fun d hd => ⟨hnamed d hd, Or.inl ?_⟩, by simp⟩
    have hmem := mem_contested_of_raised hd (hnamed d hd)
    by_contra hopen
    have : rowId d ∈ openAfterRevise (contestedAfterRefute refute) revise := by
      simpa [openAfterRevise, hmem] using hopen
    rw [h] at this
    nomatch this

/-- Where the rebuttal contests nothing. -/
theorem closedAll_rebut_iff {refute revise rebut : Ledger}
    (h : stillContestedAfterRebut rebut = []) :
    ClosedAll refute revise (some rebut) ↔ (∀ d ∈ raised refute, named d = true) ∧
      GivesUp rebut (openAfterRevise (contestedAfterRefute refute) revise) := by
  have hraised : raised rebut = addedClaims rebut := by
    have hnone : (dispositions rebut).filter contests = [] := h
    simp [raised, hnone]
  constructor
  · rintro ⟨hclosed, hmore⟩
    refine ⟨fun d hd => (hclosed d hd).1, fun id hid => ?_, ?_⟩
    · obtain ⟨hcontested, hopen⟩ := List.mem_filter.mp hid
      obtain ⟨d, hd, -, rfl⟩ := exists_raised hcontested
      rcases (hclosed d hd).2 with hyes | ⟨l, hl, hconcedes⟩
      · simp [hyes] at hopen
      · obtain rfl := Option.some.inj hl
        exact hconcedes
    · rw [← hraised]
      exact hmore rebut rfl
  · rintro ⟨hnamed, hconcedes, hadded⟩
    refine ⟨fun d hd => ⟨hnamed d hd, ?_⟩, fun l hl => ?_⟩
    · by_cases hclosed : closed revise (rowId d) = true
      · exact Or.inl hclosed
      · have hmem := mem_contested_of_raised hd (hnamed d hd)
        exact Or.inr ⟨rebut, rfl, hconcedes _ (by simp [openAfterRevise, hmem, hclosed])⟩
    · obtain rfl := Option.some.inj hl
      rw [hraised, hadded]

variable (s : Setup)

/-- Any other resolution claims nothing. -/
theorem settledOpenly_of_ne {p : Payload} (replies : List Reply)
    (h : p.debate.resolution ≠ .conceded ∧ p.debate.resolution ≠ .converged) :
    SettledOpenly replies (.decided p) := by
  simp only [SettledOpenly]
  cases hr : p.debate.resolution with
  | conceded => exact absurd hr h.1
  | converged => exact absurd hr h.2
  | _ => trivial

theorem timedOut_settled (turns : List Turn) (stillOpen : List Str) (replies : List Reply) :
    SettledOpenly replies (timedOut s turns stillOpen) := by
  rw [timedOut]
  cases (own turns).getLast? with
  | none => trivial
  | some best => exact settledOpenly_of_ne replies ⟨by simp [finish], by simp [finish]⟩

/-- A ruling, a fallback or a time-out settles nothing by itself. -/
theorem adjudicate_settled (turns : List Turn) (best : Reply) (stillOpen : List Str) {v : Verdict}
    (hv : v.resolution ≠ .conceded ∧ v.resolution ≠ .converged) (replies rest : List Reply) :
    SettledOpenly replies (adjudicate s turns best stillOpen v rest) := by
  cases rest with
  | nil => exact timedOut_settled s turns stillOpen replies
  | cons j rest =>
    rw [adjudicate]
    split_ifs
    · exact settledOpenly_of_ne replies hv
    · exact settledOpenly_of_ne replies ⟨by simp [finish], by simp [finish]⟩

theorem rebut_settled_iff (a r v : Reply) (lowEffort : Bool) (rest : List Reply) :
    SettledOpenly (a :: r :: v :: rest) (rebut s a r v
        (openAfterRevise (contestedAfterRefute r.ledger) v.ledger) lowEffort rest) ↔
      match rest with
      | rb :: _ => rb.res.status = .ok → rb.ledger ≠ none →
        stillContestedAfterRebut rb.ledger = [] → (∀ d ∈ raised r.ledger, named d = true) ∧
          GivesUp rb.ledger (openAfterRevise (contestedAfterRefute r.ledger) v.ledger)
      | [] => True := by
  cases rest with
  | nil => exact iff_true_intro (timedOut_settled s _ _ _)
  | cons rb rest =>
    rw [rebut]
    dsimp only
    split_ifs with hfailed hquiet
    · refine iff_of_true (adjudicate_settled s _ _ _ ⟨by simp, by simp⟩ _ _) fun hok hledger => ?_
      exact absurd hfailed (by simp [hok, hledger])
    · rw [not_or, not_not] at hfailed
      simp only [hfailed.1, hfailed.2, hquiet, forall_const, ne_eq, not_false_eq_true]
      exact closedAll_rebut_iff hquiet
    · refine iff_of_true (adjudicate_settled s _ _ _ ⟨by simp, by simp⟩ _ _) fun _ _ h => ?_
      exact absurd h hquiet
    · refine iff_of_true (adjudicate_settled s _ _ _ ⟨by simp, by simp⟩ _ _) fun _ _ h => ?_
      exact absurd h hquiet

theorem revise_settled_iff (a r : Reply) (lowEffort : Bool) (rest : List Reply) :
    SettledOpenly (a :: r :: rest) (revise s a r (contestedAfterRefute r.ledger) lowEffort rest) ↔
      match rest with
      | v :: rest => v.res.status = .ok → v.ledger ≠ none →
        if openAfterRevise (contestedAfterRefute r.ledger) v.ledger = [] then
          recsMatch r v = true → ∀ d ∈ raised r.ledger, named d = true
        else
          match rest with
          | rb :: _ => 2 ≤ s.rounds → rb.res.status = .ok → rb.ledger ≠ none →
            stillContestedAfterRebut rb.ledger = [] → (∀ d ∈ raised r.ledger, named d = true) ∧
              GivesUp rb.ledger (openAfterRevise (contestedAfterRefute r.ledger) v.ledger)
          | [] => True
      | [] => True := by
  cases rest with
  | nil => exact iff_true_intro (timedOut_settled s _ _ _)
  | cons v rest =>
    rw [revise]
    dsimp only
    by_cases hfailed : v.res.status ≠ .ok ∨ v.ledger = none
    · rw [if_pos hfailed]
      refine iff_of_true (adjudicate_settled s _ _ _ ⟨by simp, by simp⟩ _ _) fun hok hledger => ?_
      exact absurd hfailed (by simp [hok, hledger])
    · rw [if_neg hfailed]
      rw [not_or, not_not] at hfailed
      simp only [hfailed.1, hfailed.2, forall_const, ne_eq, not_false_eq_true]
      by_cases hopen : openAfterRevise (contestedAfterRefute r.ledger) v.ledger = []
      · simp only [hopen, true_and, not_true_eq_false, false_and, if_false, if_true]
        by_cases hrecs : recsMatch r v = true
        · rw [if_pos hrecs]
          simp only [hrecs, forall_const]
          exact closedAll_revise_iff hopen
        · rw [if_neg hrecs]
          exact iff_of_true (adjudicate_settled s _ _ _ ⟨by simp, by simp⟩ _ _)
            fun h => absurd h hrecs
      · rw [if_neg (fun h => hopen h.1), if_neg hopen]
        by_cases hrounds : 2 ≤ s.rounds
        · rw [if_pos ⟨hopen, hrounds⟩, rebut_settled_iff]
          simp only [hrounds, forall_const]
        · rw [if_neg (fun h => hrounds h.2)]
          refine iff_of_true (adjudicate_settled s _ _ _ ⟨by simp, by simp⟩ _ _) ?_
          cases rest with
          | nil => trivial
          | cons rb rest => exact fun h => absurd h hrounds

/-- A debate that ends without a judge is called what its ledgers say, exactly where they
say it: every claim is disposed of, all that is raised has an id, and a rebuttal that
contests nothing concedes what is open and adds nothing. -/
theorem settled_openly_iff (replies : List Reply) :
    SettledOpenly replies (debate s replies) ↔ Outspoken s replies := by
  match replies with
  | [] => exact iff_of_true (timedOut_settled s [] [] []) trivial
  | a :: rest =>
    rw [debate]
    cases ha : a.res.status with
    | refused => cases rest <;> simp [SettledOpenly, Outspoken, ha]
    | error => cases rest <;> simp [SettledOpenly, Outspoken, ha]
    | ok =>
      dsimp only
      cases rest with
      | nil => exact iff_of_true (timedOut_settled s _ _ _) trivial
      | cons r rest =>
        rw [refute]
        dsimp only [Outspoken]
        by_cases hr : r.res.status = .ok
        · simp only [ha, hr, ne_eq, not_true_eq_false, if_false, forall_const]
          by_cases hledger : r.ledger = none
          · rw [if_pos hledger]
            exact iff_of_true (adjudicate_settled s _ _ _ ⟨by simp, by simp⟩ _ _)
              fun h => absurd hledger h
          · simp only [hledger, if_false, not_false_eq_true, forall_const]
            by_cases hcontested : contestedAfterRefute r.ledger = []
            · rw [if_pos hcontested, if_pos hcontested]
              exact gaveIn_iff hcontested
            · rw [if_neg hcontested, if_neg hcontested, revise_settled_iff]
        · rw [if_pos hr]
          exact iff_of_true (settledOpenly_of_ne _ ⟨by simp [finish], by simp [finish]⟩)
            fun _ h => absurd h hr

end

/-- A reply of one model, ok and with a sidecar-free text. -/
def plainReply (model : Str) (ledger : Ledger) : Reply :=
  ⟨⟨.ok, [], txt "text", [], model⟩, txt "text", none, ledger, fun h => absurd rfl h⟩

/-- The proposer lists a claim, and the opponent's ledger disposes of none. -/
def silentDebate : List Reply :=
  [plainReply (txt "fable") (some [(txt "claims", .arr [.obj [(txt "id", .str (txt "C1"))]])]),
    plainReply (txt "minimax") (some [(txt "dispositions", .arr [])])]

-- the ledgers can be read off texts: the extractors find them, and the debate is conceded
example :
    letI := Host.ascii
    (([txt "text\n```json-debate\n\x7b\"claims\": [\x7b\"id\": \"C1\"\x7d]\x7d\n```",
        txt "text\n```json-debate\n\x7b\"dispositions\": []\x7d\n```"].mapM
      fun text => debateTurn ⟨.ok, [], text, [], txt "model"⟩).toOption.map fun replies =>
        match debate ⟨txt "fable", txt "minimax", 1, txt "600"⟩ replies with
        | .decided p => some p.debate.resolution
        | _ => none) = some (some .conceded) := by
  decide +kernel

theorem silence_concedes :
    ¬∀ (_ : Host) (s : Setup) (replies : List Reply), SettledOpenly replies (debate s replies) := by
  intro h
  let host : Host := Host.ascii
  let s : Setup := ⟨txt "fable", txt "minimax", 1, txt "600"⟩
  -- the opponent's ledger contests nothing, so the debate ends as conceded
  have hgave : GaveIn
      (some [(txt "claims", .arr [.obj [(txt "id", .str (txt "C1"))]])])
      (some [(txt "dispositions", .arr [])]) := h host s silentDebate
  obtain ⟨d, hd, -⟩ := hgave.1 [(txt "id", .str (txt "C1"))] (List.mem_singleton.mpr rfl)
    (by decide)
  have hnone : dispositions (some [(txt "dispositions", .arr [])]) = [] := rfl
  rw [hnone] at hd
  nomatch hd

end AskFable.Debate
